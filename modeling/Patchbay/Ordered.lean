/-!
# Records in key order

A list of records in strictly ascending order of their keys, so at most one record has a key, and two
such lists with the same members are equal. A key is a list of texts; the texts are compared one after
the other, each by its code points, which is also the order of their bytes in UTF-8.

The view is `toList`. `insert` puts a record in its place and drops an older one with its key.
-/

namespace Patchbay

class Keyed (α : Type) where
  key : α → List String

namespace Keyed

variable {α : Type} [Keyed α]

def Before (a b : α) : Prop := key a < key b

instance (a b : α) : Decidable (Before a b) :=
  inferInstanceAs (Decidable (key a < key b))

theorem not_before_self (a : α) : ¬Before a a := List.lt_irrefl _

theorem Before.trans {a b c : α} (h : Before a b) (h' : Before b c) : Before a c :=
  List.lt_trans h h'

theorem Before.key_ne {a b : α} (h : Before a b) : key a ≠ key b := by
  intro heq
  unfold Before at h
  rw [heq] at h
  exact List.lt_irrefl _ h

theorem key_eq_of_not_before {a b : α} (h : ¬Before a b) (h' : ¬Before b a) : key a = key b :=
  List.le_antisymm (List.not_lt.mp h') (List.not_lt.mp h)

end Keyed

open Keyed

structure Ordered (α : Type) [Keyed α] where
  toList : List α
  ascending : toList.Pairwise Before
  deriving DecidableEq

namespace Ordered

variable {α : Type} [Keyed α]

def insertInto (x : α) : List α → List α
  | [] => [x]
  | y :: rest =>
    if Before x y then x :: y :: rest
    else if Before y x then y :: insertInto x rest
    else x :: rest

theorem mem_of_mem_insertInto {x y : α} {l : List α} (h : y ∈ insertInto x l) : y = x ∨ y ∈ l := by
  induction l with
  | nil => exact Or.inl (List.mem_singleton.mp h)
  | cons z rest ih =>
    unfold insertInto at h
    split at h
    · rcases List.mem_cons.mp h with h | h
      · exact Or.inl h
      · exact Or.inr h
    · split at h
      · rcases List.mem_cons.mp h with h | h
        · exact Or.inr (h ▸ List.mem_cons_self)
        · exact (ih h).imp id (List.mem_cons_of_mem z)
      · rcases List.mem_cons.mp h with h | h
        · exact Or.inl h
        · exact Or.inr (List.mem_cons_of_mem z h)

theorem pairwise_insertInto {x : α} {l : List α} (h : l.Pairwise Before) :
    (insertInto x l).Pairwise Before := by
  induction l with
  | nil => exact List.pairwise_singleton Before x
  | cons y rest ih =>
    have ⟨hy, hrest⟩ := List.pairwise_cons.mp h
    unfold insertInto
    split
    · rename_i hxy
      refine List.pairwise_cons.mpr ⟨fun z hz => ?_, h⟩
      rcases List.mem_cons.mp hz with rfl | hz
      · exact hxy
      · exact hxy.trans (hy z hz)
    · rename_i hxy
      split
      · rename_i hyx
        refine List.pairwise_cons.mpr ⟨fun z hz => ?_, ih hrest⟩
        rcases mem_of_mem_insertInto hz with rfl | hz
        · exact hyx
        · exact hy z hz
      · rename_i hyx
        have hkey : key x = key y := key_eq_of_not_before hxy hyx
        refine List.pairwise_cons.mpr ⟨fun z hz => ?_, hrest⟩
        have hyz := hy z hz
        unfold Before at hyz ⊢
        rwa [hkey]

def empty : Ordered α := ⟨[], List.Pairwise.nil⟩

instance : Inhabited (Ordered α) := ⟨empty⟩

def insert (o : Ordered α) (x : α) : Ordered α :=
  ⟨insertInto x o.toList, pairwise_insertInto o.ascending⟩

/-- The records of a list, the last of each key. -/
def ofList (l : List α) : Ordered α :=
  l.foldl insert empty

def filter (o : Ordered α) (p : α → Bool) : Ordered α :=
  ⟨o.toList.filter p, o.ascending.filter p⟩

def erase (o : Ordered α) (k : List String) : Ordered α :=
  o.filter (key · != k)

def find? (o : Ordered α) (k : List String) : Option α :=
  o.toList.find? (key · == k)

def contains (o : Ordered α) (k : List String) : Bool :=
  o.toList.any (key · == k)

def size (o : Ordered α) : Nat := o.toList.length

def isEmpty (o : Ordered α) : Bool := o.toList.isEmpty

theorem eq_of_pairwise {l l' : List α} (h : l.Pairwise Before) (h' : l'.Pairwise Before)
    (hmem : ∀ x, x ∈ l ↔ x ∈ l') : l = l' := by
  induction l generalizing l' with
  | nil =>
    cases l' with
    | nil => rfl
    | cons y _ => exact absurd ((hmem y).mpr List.mem_cons_self) List.not_mem_nil
  | cons x rest ih =>
    cases l' with
    | nil => exact absurd ((hmem x).mp List.mem_cons_self) List.not_mem_nil
    | cons y rest' =>
      have ⟨hx, hrest⟩ := List.pairwise_cons.mp h
      have ⟨hy, hrest'⟩ := List.pairwise_cons.mp h'
      have hxy : x = y := by
        rcases List.mem_cons.mp ((hmem x).mp List.mem_cons_self) with h₁ | h₁
        · exact h₁
        · rcases List.mem_cons.mp ((hmem y).mpr List.mem_cons_self) with h₂ | h₂
          · exact h₂.symm
          · exact absurd ((hx y h₂).trans (hy x h₁)) (not_before_self x)
      subst hxy
      congr 1
      refine ih hrest hrest' fun z => ⟨fun hz => ?_, fun hz => ?_⟩
      · rcases List.mem_cons.mp ((hmem z).mp (List.mem_cons_of_mem x hz)) with rfl | hz'
        · exact absurd (hx z hz) (not_before_self z)
        · exact hz'
      · rcases List.mem_cons.mp ((hmem z).mpr (List.mem_cons_of_mem x hz)) with rfl | hz'
        · exact absurd (hy z hz) (not_before_self z)
        · exact hz'

theorem ext_mem {o o' : Ordered α} (h : ∀ x, x ∈ o.toList ↔ x ∈ o'.toList) : o = o' := by
  cases o
  cases o'
  congr
  exact eq_of_pairwise (by assumption) (by assumption) h

@[simp] theorem toList_empty : (empty : Ordered α).toList = [] := rfl

theorem mem_toList_filter {o : Ordered α} {p : α → Bool} {x : α} :
    x ∈ (o.filter p).toList ↔ x ∈ o.toList ∧ p x = true := List.mem_filter

end Ordered

end Patchbay
