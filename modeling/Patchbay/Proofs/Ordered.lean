import Patchbay.Ordered

/-!
# Membership in records in key order

Each operation on an ascending list of records is read off its members. Two members with one key are
the same record, so looking a key up is membership as well. A test that only heeds keys commutes with
inserting; this is how the records of one owner are told apart from those of others.
-/

namespace Patchbay.Ordered
open Keyed
variable {α : Type} [Keyed α]

theorem before_or_before {l : List α} (h : l.Pairwise Before) {x y : α} (hx : x ∈ l) (hy : y ∈ l) :
    x = y ∨ Before x y ∨ Before y x := by
  induction l with
  | nil => exact absurd hx List.not_mem_nil
  | cons z rest ih =>
    obtain ⟨hz, hrest⟩ := List.pairwise_cons.mp h
    rcases List.mem_cons.mp hx with rfl | hx'
    · rcases List.mem_cons.mp hy with rfl | hy'
      · exact Or.inl rfl
      · exact Or.inr (Or.inl (hz y hy'))
    · rcases List.mem_cons.mp hy with rfl | hy'
      · exact Or.inr (Or.inr (hz x hx'))
      · exact ih hrest hx' hy'

theorem eq_of_key_eq {o : Ordered α} {x y : α} (hx : x ∈ o.toList) (hy : y ∈ o.toList)
    (h : key x = key y) : x = y := by
  rcases before_or_before o.ascending hx hy with he | hb | hb
  · exact he
  · exact absurd h hb.key_ne
  · exact absurd h.symm hb.key_ne

theorem mem_insertInto {l : List α} (h : l.Pairwise Before) {x y : α} :
    y ∈ insertInto x l ↔ y = x ∨ (y ∈ l ∧ key y ≠ key x) := by
  induction l with
  | nil => simp [insertInto]
  | cons z rest ih =>
    obtain ⟨hz, hrest⟩ := List.pairwise_cons.mp h
    simp only [insertInto]
    split
    · rename_i hxz
      have hne : ∀ w ∈ z :: rest, key w ≠ key x := by
        intro w hw
        rcases List.mem_cons.mp hw with rfl | hw
        · exact hxz.key_ne.symm
        · exact (hxz.trans (hz w hw)).key_ne.symm
      rw [List.mem_cons]
      exact or_congr_right ⟨fun hy => ⟨hy, hne y hy⟩, And.left⟩
    · rename_i hxz
      split
      · rename_i hzx
        rw [List.mem_cons, ih hrest, List.mem_cons]
        constructor
        · intro hmem
          rcases hmem with rfl | rfl | ⟨hy, hk⟩
          · exact Or.inr ⟨Or.inl rfl, hzx.key_ne⟩
          · exact Or.inl rfl
          · exact Or.inr ⟨Or.inr hy, hk⟩
        · intro hmem
          rcases hmem with rfl | ⟨rfl | hy, hk⟩
          · exact Or.inr (Or.inl rfl)
          · exact Or.inl rfl
          · exact Or.inr (Or.inr ⟨hy, hk⟩)
      · rename_i hzx
        have hkey : key x = key z := key_eq_of_not_before hxz hzx
        rw [List.mem_cons, List.mem_cons]
        constructor
        · intro hmem
          rcases hmem with rfl | hy
          · exact Or.inl rfl
          · exact Or.inr ⟨Or.inr hy, fun hk => (hz y hy).key_ne (hkey ▸ hk.symm)⟩
        · intro hmem
          rcases hmem with rfl | ⟨rfl | hy, hk⟩
          · exact Or.inl rfl
          · exact absurd hkey.symm hk
          · exact Or.inr hy

theorem mem_insert {o : Ordered α} {x y : α} :
    y ∈ (o.insert x).toList ↔ y = x ∨ (y ∈ o.toList ∧ key y ≠ key x) :=
  mem_insertInto o.ascending

theorem mem_erase {o : Ordered α} {k : List String} {x : α} :
    x ∈ (o.erase k).toList ↔ x ∈ o.toList ∧ key x ≠ k := by
  simp only [erase]
  rw [mem_toList_filter, bne_iff_ne]

theorem contains_iff {o : Ordered α} {k : List String} :
    o.contains k = true ↔ ∃ x ∈ o.toList, key x = k := by
  simp only [contains, List.any_eq_true, beq_iff_eq]

theorem mem_of_find? {o : Ordered α} {k : List String} {x : α} (h : o.find? k = some x) :
    x ∈ o.toList ∧ key x = k := by
  have hk : (key x == k) = true := List.find?_some (p := (key · == k)) h
  exact ⟨List.mem_of_find?_eq_some h, beq_iff_eq.mp hk⟩

theorem find?_eq_some_iff {o : Ordered α} {k : List String} {x : α} :
    o.find? k = some x ↔ x ∈ o.toList ∧ key x = k := by
  refine ⟨mem_of_find?, ?_⟩
  intro hmem
  obtain ⟨hx, rfl⟩ := hmem
  cases h : o.find? (key x) with
  | none =>
    have hn := List.find?_eq_none.mp h x hx
    exact absurd (beq_self_eq_true (key x)) hn
  | some y =>
    obtain ⟨hy, hk⟩ := mem_of_find? h
    exact congrArg some (eq_of_key_eq hy hx hk)

theorem find?_insert_self (o : Ordered α) (x : α) : (o.insert x).find? (key x) = some x :=
  find?_eq_some_iff.mpr ⟨mem_insert.mpr (Or.inl rfl), rfl⟩

theorem find?_insert_of_ne {o : Ordered α} {x : α} {k : List String} (h : k ≠ key x) :
    (o.insert x).find? k = o.find? k := by
  ext y
  rw [find?_eq_some_iff, find?_eq_some_iff, mem_insert]
  constructor
  · intro hmem
    rcases hmem with ⟨rfl | ⟨hy, _⟩, hk⟩
    · exact absurd hk.symm h
    · exact ⟨hy, hk⟩
  · intro hmem
    obtain ⟨hy, hk⟩ := hmem
    exact ⟨Or.inr ⟨hy, hk ▸ h⟩, hk⟩

theorem find?_erase_self (o : Ordered α) (k : List String) : (o.erase k).find? k = none := by
  ext y
  rw [find?_eq_some_iff, mem_erase]
  constructor
  · intro hmem
    obtain ⟨⟨_, hk⟩, hk'⟩ := hmem
    exact absurd hk' hk
  · intro h
    cases h

theorem find?_erase_of_ne {o : Ordered α} {k k' : List String} (h : k ≠ k') :
    (o.erase k').find? k = o.find? k := by
  ext y
  rw [find?_eq_some_iff, find?_eq_some_iff, mem_erase]
  constructor
  · intro hmem
    obtain ⟨⟨hy, _⟩, hk⟩ := hmem
    exact ⟨hy, hk⟩
  · intro hmem
    obtain ⟨hy, hk⟩ := hmem
    exact ⟨⟨hy, hk ▸ h⟩, hk⟩

theorem mem_foldl_insert {l : List α} {o : Ordered α} {x : α} (h : x ∈ (l.foldl insert o).toList) :
    x ∈ o.toList ∨ x ∈ l := by
  induction l generalizing o with
  | nil => exact Or.inl h
  | cons y rest ih =>
    rcases ih h with h | h
    · rcases mem_insert.mp h with rfl | ⟨h, _⟩
      · exact Or.inr List.mem_cons_self
      · exact Or.inl h
    · exact Or.inr (List.mem_cons_of_mem y h)

theorem mem_of_mem_ofList {l : List α} {x : α} (h : x ∈ (ofList l).toList) : x ∈ l :=
  (mem_foldl_insert h).resolve_left List.not_mem_nil

theorem mem_foldl_insert_of_injective (hinj : ∀ a b : α, key a = key b → a = b) {l : List α}
    {o : Ordered α} {x : α} : x ∈ (l.foldl insert o).toList ↔ x ∈ o.toList ∨ x ∈ l := by
  induction l generalizing o with
  | nil => simp
  | cons y rest ih =>
    rw [List.foldl_cons, ih, mem_insert, List.mem_cons]
    by_cases hxy : x = y
    · simp [hxy]
    · have hk : key x ≠ key y := fun hk => hxy (hinj x y hk)
      simp [hxy, hk]

/-- Where the key is the whole record, a list keeps all its members. -/
theorem mem_ofList_of_injective (hinj : ∀ a b : α, key a = key b → a = b) {l : List α} {x : α} :
    x ∈ (ofList l).toList ↔ x ∈ l := by
  simp only [ofList]
  rw [mem_foldl_insert_of_injective hinj]
  simp

section Tests
variable {p : α → Bool} (hp : ∀ a b : α, key a = key b → p a = p b)
include hp

theorem filter_insert (o : Ordered α) (x : α) :
    (o.insert x).filter p = if p x then (o.filter p).insert x else o.filter p := by
  apply ext_mem
  intro y
  rw [mem_toList_filter, mem_insert]
  split
  · rename_i hx
    rw [mem_insert, mem_toList_filter]
    constructor
    · intro hmem
      rcases hmem with ⟨rfl | ⟨hy, hk⟩, hpy⟩
      · exact Or.inl rfl
      · exact Or.inr ⟨⟨hy, hpy⟩, hk⟩
    · intro hmem
      rcases hmem with rfl | ⟨⟨hy, hpy⟩, hk⟩
      · exact ⟨Or.inl rfl, hx⟩
      · exact ⟨Or.inr ⟨hy, hk⟩, hpy⟩
  · rename_i hx
    rw [mem_toList_filter]
    constructor
    · intro hmem
      rcases hmem with ⟨rfl | ⟨hy, _⟩, hpy⟩
      · exact absurd hpy hx
      · exact ⟨hy, hpy⟩
    · intro hmem
      obtain ⟨hy, hpy⟩ := hmem
      exact ⟨Or.inr ⟨hy, fun hk => hx (hp y x hk ▸ hpy)⟩, hpy⟩

theorem filter_foldl_insert (l : List α) (o : Ordered α) :
    (l.foldl insert o).filter p = (l.filter p).foldl insert (o.filter p) := by
  induction l generalizing o with
  | nil => rfl
  | cons x rest ih =>
    rw [List.foldl_cons, ih, filter_insert hp]
    by_cases hx : p x = true
    · rw [if_pos hx, List.filter_cons_of_pos hx, List.foldl_cons]
    · rw [if_neg hx, List.filter_cons_of_neg hx]

theorem filter_ofList (l : List α) : (ofList l).filter p = ofList (l.filter p) := by
  simp only [ofList]
  rw [filter_foldl_insert hp]
  rfl

end Tests

end Patchbay.Ordered
