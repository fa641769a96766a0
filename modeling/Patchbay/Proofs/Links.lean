import Patchbay.Proofs.Interface
import Patchbay.Proofs.Ordered
import Patchbay.Wiring.Basic

/-!
# Links peer by peer

The links of a rule are those of its target to each peer that it selects, and the links to a peer depend
on the definition of that peer, the types of the local inputs and the known categories alone. So scenes
that agree in these, and about one agent, give a rule the same links of that agent.

A link that is on names a known peer, an output of its effective set, and a local input of the type of
that output. For a category this is not said by the link, which has the type of the template; it holds
because the peer passed the comparison with the template.
-/

namespace Patchbay
open Keyed Ordered

namespace Ordered
variable {α : Type} [Keyed α]

theorem filter_key_eq (o : Ordered α) (k : List String) :
    o.toList.filter (key · == k) = (o.find? k).toList := by
  refine eq_of_pairwise (o.ascending.filter _) ?_ fun x => ?_
  · cases o.find? k with
    | none => exact List.Pairwise.nil
    | some x => exact List.pairwise_singleton _ x
  · rw [List.mem_filter, beq_iff_eq, Option.mem_toList, find?_eq_some_iff]

end Ordered

namespace Peers

theorem find?_eq_some_iff {p : Peers} {agent : String} {d : Definition} :
    p.find? agent = some d ↔ ⟨agent, d⟩ ∈ p.toList := by
  simp only [Peers.find?]
  rw [Option.map_eq_some_iff]
  constructor
  · intro hfound
    obtain ⟨peer, hpeer, rfl⟩ := hfound
    obtain ⟨hmem, hkey⟩ := Ordered.find?_eq_some_iff.mp hpeer
    have hname : peer.name = agent := List.cons.inj hkey |>.1
    exact hname ▸ hmem
  · intro hmem
    exact ⟨⟨agent, d⟩, Ordered.find?_eq_some_iff.mpr ⟨hmem, rfl⟩, rfl⟩

theorem filter_name_eq (p : Peers) (agent : String) :
    p.toList.filter (·.name == agent) = ((p.find? agent).map (Peer.mk agent)).toList := by
  have hkey : p.toList.filter (·.name == agent) = p.toList.filter (key · == [agent]) := by
    refine List.filter_congr fun peer _ => ?_
    simp [key]
  rw [hkey, filter_key_eq]
  simp only [Peers.find?]
  cases h : Ordered.find? p [agent] with
  | none => rfl
  | some peer =>
    have hname : peer.name = agent := List.cons.inj (Ordered.find?_eq_some_iff.mp h).2 |>.1
    rw [← hname]
    rfl

end Peers

/-- The links of a set that read from an agent. -/
def Links.of (ls : Links) (agent : String) : Links :=
  ls.filter (·.agent == agent)

theorem Links.mem_of {ls : Links} {agent : String} {l : Link} :
    l ∈ (ls.of agent).toList ↔ l ∈ ls.toList ∧ l.agent = agent := by
  simp only [Links.of]
  rw [mem_toList_filter, beq_iff_eq]

namespace Scene

theorem link?_eq (scene : Scene) (peer : Peer) (output input : String) :
    scene.link? peer output input = (scene.inputs.type? .input input).bind fun type =>
      (peer.definition.find? .output output).map fun remote =>
        ⟨peer.name, output, input, .ofTypes remote.type type⟩ := by
  simp only [link?, Interface.type?]
  cases scene.inputs.find? .input input with
  | none => rfl
  | some s =>
    cases peer.definition.find? .output output <;> rfl

theorem memberLink?_eq (scene : Scene) (peer : Peer) (member : Slot) :
    scene.memberLink? peer member = (scene.inputs.type? .input member.name).map fun type =>
      ⟨peer.name, member.name, member.name, .ofTypes member.type type⟩ := by
  simp only [memberLink?, Interface.type?]
  cases scene.inputs.find? .input member.name <;> rfl

/-- The links of a target to one peer. -/
def peerLinks (scene : Scene) (target : Target) (peer : Peer) : List Link :=
  match target with
  | .output input output => (scene.link? peer output input).toList
  | .category category => scene.categoryLinks category peer

theorem links_eq (scene : Scene) (r : Rule) :
    scene.links r =
      .ofList ((scene.peers.selected r.source).flatMap (scene.peerLinks r.target)) := by
  simp only [links]
  cases r.target with
  | output input output => exact congrArg Ordered.ofList (List.filterMap_eq_flatMap_toList _ _)
  | category category => rfl

section Agreement
variable {S T : Scene} (hi : ∀ input, S.inputs.type? .input input = T.inputs.type? .input input)
  (hc : S.catalog = T.catalog)
include hi hc

theorem peerLinks_congr (target : Target) (peer : Peer) :
    S.peerLinks target peer = T.peerLinks target peer := by
  cases target with
  | output input output =>
    simp only [peerLinks, link?_eq, hi input]
  | category category =>
    have hmember : S.memberLink? peer = T.memberLink? peer := by
      funext member
      rw [memberLink?_eq, memberLink?_eq, hi member.name]
    simp only [peerLinks, categoryLinks, template?, hc, hmember]

theorem links_congr (hp : S.peers = T.peers) (r : Rule) : S.links r = T.links r := by
  have hlinks : S.peerLinks r.target = T.peerLinks r.target := funext (peerLinks_congr hi hc r.target)
  rw [links_eq, links_eq, hp, hlinks]

end Agreement

/-- A link to a peer is what the types that are declared on both sides make of it. -/
theorem typed_of_mem_peerLinks {scene : Scene} {target : Target} {peer : Peer} {l : Link}
    (h : l ∈ scene.peerLinks target peer) :
    ∃ remote type, peer.definition.find? .output l.output = some remote ∧
      scene.inputs.type? .input l.input = some type ∧
      l = ⟨peer.name, l.output, l.input, .ofTypes remote.type type⟩ := by
  cases target with
  | output input output =>
    simp only [peerLinks, link?_eq, Option.mem_toList, Option.bind_eq_some_iff,
      Option.map_eq_some_iff] at h
    obtain ⟨type, htype, remote, hremote, rfl⟩ := h
    exact ⟨remote, type, hremote, htype, rfl⟩
  | category category =>
    simp only [peerLinks, categoryLinks] at h
    split at h
    · exact absurd h List.not_mem_nil
    · rename_i c _
      split at h
      · rename_i hsat
        obtain ⟨member, hmember, hlink⟩ := List.mem_filterMap.mp h
        rw [memberLink?_eq, Option.map_eq_some_iff] at hlink
        obtain ⟨type, htype, rfl⟩ := hlink
        -- the link has the type of the template, which the peer's own output fits
        have hfits : (peer.definition.find? .output member.name).any (·.fits member) = true := by
          simp only [Definition.satisfies, Scope.kinds, List.all_cons, List.all_nil, Bool.and_true]
            at hsat
          exact List.all_eq_true.mp hsat member hmember
        obtain ⟨remote, hremote, hfit⟩ := (Option.any_eq_true _ _).mp hfits
        have hsame : remote.type = member.type := by
          simp only [Slot.fits, Bool.and_eq_true, beq_iff_eq] at hfit
          exact hfit.2
        exact ⟨remote, type, hremote, htype, by rw [hsame]⟩
      · exact absurd h List.not_mem_nil

theorem agent_of_mem_peerLinks {scene : Scene} {target : Target} {peer : Peer} {l : Link}
    (h : l ∈ scene.peerLinks target peer) : l.agent = peer.name := by
  obtain ⟨_, _, _, _, hl⟩ := typed_of_mem_peerLinks h
  exact congrArg Link.agent hl

theorem filter_flatMap_peerLinks (scene : Scene) (target : Target) (agent : String)
    (peers : List Peer) :
    (peers.flatMap (scene.peerLinks target)).filter (·.agent == agent) =
      (peers.filter (·.name == agent)).flatMap (scene.peerLinks target) := by
  induction peers with
  | nil => rfl
  | cons peer rest ih =>
    rw [List.flatMap_cons, List.filter_append, ih]
    by_cases hname : peer.name = agent
    · have hall : (scene.peerLinks target peer).filter (·.agent == agent) =
          scene.peerLinks target peer := by
        refine List.filter_eq_self.mpr fun l hl => ?_
        rw [agent_of_mem_peerLinks hl]
        exact beq_iff_eq.mpr hname
      rw [hall, List.filter_cons_of_pos (by simpa using hname), List.flatMap_cons]
    · have hnone : (scene.peerLinks target peer).filter (·.agent == agent) = [] := by
        refine List.filter_eq_nil_iff.mpr fun l hl => ?_
        rw [agent_of_mem_peerLinks hl]
        simpa using hname
      rw [hnone, List.nil_append, List.filter_cons_of_neg (by simpa using hname)]

/-- The links of a rule that read from an agent are what the rule comes to for that agent alone. -/
theorem links_of (scene : Scene) (r : Rule) (agent : String) :
    (scene.links r).of agent = .ofList
      ((((scene.peers.find? agent).map (Peer.mk agent)).toList.filter
        (r.source.selects ·.name)).flatMap (scene.peerLinks r.target)) := by
  have hkey (a b : Link) (h : key a = key b) : (a.agent == agent) = (b.agent == agent) := by
    rw [(List.cons.inj h).1]
  simp only [Links.of]
  rw [links_eq, filter_ofList hkey, filter_flatMap_peerLinks]
  simp only [Peers.selected]
  rw [List.filter_filter, List.filter_congr fun peer _ => Bool.and_comm _ _, ← List.filter_filter,
    Peers.filter_name_eq]

theorem links_of_congr {S T : Scene} (hi : ∀ input, S.inputs.type? .input input = T.inputs.type? .input input)
    (hc : S.catalog = T.catalog) {agent : String}
    (hp : S.peers.find? agent = T.peers.find? agent) (r : Rule) :
    (S.links r).of agent = (T.links r).of agent := by
  have hlinks : S.peerLinks r.target = T.peerLinks r.target := funext (peerLinks_congr hi hc r.target)
  rw [links_of, links_of, hp, hlinks]

theorem ofTypes_eq_on_iff {remote localType : ValueType} :
    Outcome.ofTypes remote localType = .on ↔ remote = localType := by
  simp only [Outcome.ofTypes]
  split <;> simp_all

theorem on_of_mem_peerLinks {scene : Scene} {target : Target} {peer : Peer} {l : Link}
    (h : l ∈ scene.peerLinks target peer) (hon : l.isOn = true) :
    ∃ remote, peer.definition.find? .output l.output = some remote ∧
      scene.inputs.type? .input l.input = some remote.type := by
  obtain ⟨remote, type, hremote, htype, hl⟩ := typed_of_mem_peerLinks h
  have hon : Outcome.ofTypes remote.type type = .on :=
    (congrArg Link.outcome hl).symm.trans (beq_iff_eq.mp hon)
  exact ⟨remote, hremote, by rw [htype, ofTypes_eq_on_iff.mp hon]⟩

theorem on_of_mem_links {scene : Scene} {r : Rule} {l : Link} (h : l ∈ (scene.links r).toList)
    (hon : l.isOn = true) :
    ∃ d remote, scene.peers.find? l.agent = some d ∧ d.find? .output l.output = some remote ∧
      scene.inputs.type? .input l.input = some remote.type := by
  rw [links_eq] at h
  obtain ⟨peer, hpeer, hl⟩ := List.mem_flatMap.mp (mem_of_mem_ofList h)
  obtain ⟨remote, hremote, htype⟩ := on_of_mem_peerLinks hl hon
  have hknown : peer ∈ scene.peers.toList := (List.mem_filter.mp hpeer).1
  refine ⟨peer.definition, remote, ?_, hremote, htype⟩
  rw [agent_of_mem_peerLinks hl]
  exact Peers.find?_eq_some_iff.mpr hknown

end Scene

namespace Entry

theorem resolve_congr {S T : Scene} {e : Entry} (h : S.links e.rule = T.links e.rule) :
    e.resolve S = e.resolve T := by
  simp only [resolve]
  rw [h]

theorem resolve_resolve (S T : Scene) (e : Entry) : (e.resolve S).resolve T = e.resolve T := rfl

theorem links_of_resolved {scene : Scene} {e : Entry} (h : e.resolve scene = e) :
    e.links = scene.links e.rule :=
  (congrArg Entry.links h).symm

end Entry

/-- A pass depends on the links of the rules alone. -/
theorem Wiring.resolve_congr {S T : Scene} (h : ∀ r, S.links r = T.links r) (w : Wiring) :
    w.resolve S = w.resolve T := by
  have hentries : w.entries.map (Entry.resolve S) = w.entries.map (Entry.resolve T) :=
    List.map_congr_left fun e _ => Entry.resolve_congr (h e.rule)
  simp only [resolve, hentries]

end Patchbay
