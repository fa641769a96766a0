import Patchbay.Proofs.Akin

/-!
# Rules as what they expand to

A rule that means several agents comes to what it comes to for each of them alone. For a rule with a
target of one output these are the rules that name the agents one by one, and their links follow each
other in the order of the names. For a category they are rules that name an agent and an output, one for
each output of the template, as long as the agent has all of them: a template gives its links the types
that it declares itself, and the comparison with it makes these the types of the agent's own outputs.

So no link tells what kind of rule it comes from. It is on if and only if the output that the peer has
and the local input are of one type.
-/

namespace Patchbay
open Keyed Ordered

theorem Peers.eq_of_name_eq {peers : Peers} {p q : Peer} (hp : p ∈ peers.toList) (hq : q ∈ peers.toList)
    (h : p.name = q.name) : p = q :=
  eq_of_key_eq hp hq (congrArg (fun name => [name]) h)

namespace Scene

/-- A peer has one definition, so no two links of one rule have the same ends. -/
theorem mem_links {scene : Scene} {r : Rule} {l : Link} : l ∈ (scene.links r).toList ↔
    ∃ peer ∈ scene.peers.toList, r.source.selects peer.name = true ∧
      l ∈ scene.peerLinks r.target peer := by
  rw [links_eq, mem_ofList_of_unique]
  · simp only [Peers.selected, List.mem_flatMap, List.mem_filter, and_assoc]
  · intro x hx y hy hkey
    obtain ⟨p, hp, hx⟩ := List.mem_flatMap.mp hx
    obtain ⟨q, hq, hy⟩ := List.mem_flatMap.mp hy
    obtain ⟨remote, type, hremote, htype, hxl⟩ := typed_of_mem_peerLinks hx
    obtain ⟨remote', type', hremote', htype', hyl⟩ := typed_of_mem_peerLinks hy
    have hends : x.agent = y.agent ∧ x.output = y.output ∧ x.input = y.input := by
      simpa [key] using hkey
    obtain ⟨hagent, houtput, hinput⟩ := hends
    have hname : p.name = q.name := by
      rw [← agent_of_mem_peerLinks hx, ← agent_of_mem_peerLinks hy, hagent]
    obtain rfl : p = q :=
      Peers.eq_of_name_eq (List.mem_filter.mp hp).1 (List.mem_filter.mp hq).1 hname
    rw [houtput, hremote'] at hremote
    rw [hinput, htype'] at htype
    cases hremote
    cases htype
    rw [hxl, hyl, houtput, hinput]

section Named
variable {scene : Scene} {peer : Peer} (hpeer : peer ∈ scene.peers.toList)
include hpeer

theorem mem_links_named {target : Target} {l : Link} :
    l ∈ (scene.links ⟨.named peer.name, target⟩).toList ↔ l ∈ scene.peerLinks target peer := by
  rw [mem_links]
  constructor
  · rintro ⟨other, hother, hname, hl⟩
    have hname : peer.name = other.name := by simpa [Selector.selects] using hname
    obtain rfl : peer = other := Peers.eq_of_name_eq hpeer hother hname
    exact hl
  · intro hl
    exact ⟨peer, hpeer, by simp [Selector.selects], hl⟩

/-- For a peer that fits the template, a category comes to the outputs of the template one by one. -/
theorem mem_categoryLinks {category : String} {l : Link} :
    l ∈ scene.peerLinks (.category category) peer ↔
      ∃ c, scene.template? peer category = some c ∧ peer.definition.satisfies c .outputs = true ∧
        ∃ member ∈ c.slots.slots .output,
          l ∈ (scene.links ⟨.named peer.name, .output member.name member.name⟩).toList := by
  have hsame {c : Category} (hsat : peer.definition.satisfies c .outputs = true) {member : Slot}
      (hmember : member ∈ c.slots.slots .output) :
      scene.memberLink? peer member = scene.link? peer member.name member.name := by
    have htype := Definition.satisfies_outputs_iff.mp hsat member hmember
    obtain ⟨remote, hremote, htype⟩ := Option.map_eq_some_iff.mp htype
    rw [memberLink?_eq, link?_eq, hremote, ← htype]
    cases scene.inputs.type? .input member.name <;> rfl
  simp only [mem_links_named hpeer]
  simp only [peerLinks, categoryLinks, Option.mem_toList]
  cases scene.template? peer category with
  | none => simp
  | some c =>
    simp only [Option.some.injEq, exists_eq_left']
    split
    · rename_i hsat
      rw [List.mem_filterMap]
      simp only [hsat, true_and]
      exact exists_congr fun member => and_congr_right fun hmember => by rw [hsame hsat hmember]
    · rename_i hsat
      simp [hsat]

end Named

theorem before_of_names {p q : Peer} (h : Before p q) {x y : Link} (hx : x.agent = p.name)
    (hy : y.agent = q.name) : Before x y := by
  simp only [Before, key, hx, hy] at h ⊢
  rcases List.cons_lt_cons_iff.mp h with hname | ⟨_, hnil⟩
  · exact List.cons_lt_cons_iff.mpr (.inl hname)
  · exact absurd hnil (List.lt_irrefl [])

theorem pairwise_namedLinks (scene : Scene) (target : Target) :
    (scene.peers.toList.flatMap fun peer =>
      (scene.links ⟨.named peer.name, target⟩).toList).Pairwise Before := by
  rw [List.pairwise_flatMap]
  refine ⟨fun peer _ => (scene.links _).ascending, ?_⟩
  refine scene.peers.ascending.imp_of_mem fun hp hq hpq x hx y hy => ?_
  exact before_of_names hpq (agent_of_mem_peerLinks ((mem_links_named hp).mp hx))
    (agent_of_mem_peerLinks ((mem_links_named hq).mp hy))

theorem toList_links_any (scene : Scene) (target : Target) :
    (scene.links ⟨.any, target⟩).toList =
      scene.peers.toList.flatMap fun peer => (scene.links ⟨.named peer.name, target⟩).toList := by
  refine eq_of_pairwise (scene.links _).ascending (pairwise_namedLinks scene target) fun l => ?_
  rw [mem_links, List.mem_flatMap]
  refine exists_congr fun peer => and_congr_right fun hpeer => ?_
  rw [mem_links_named hpeer]
  exact and_iff_right rfl

theorem isOn_iff_of_mem_links {scene : Scene} {r : Rule} {l : Link} (h : l ∈ (scene.links r).toList) :
    ∃ d remote input, scene.peers.find? l.agent = some d ∧ d.find? .output l.output = some remote ∧
      scene.inputs.find? .input l.input = some input ∧ (l.isOn = true ↔ remote.type = input.type) := by
  obtain ⟨peer, hpeer, _, hl⟩ := mem_links.mp h
  obtain ⟨remote, type, hremote, htype, heq⟩ := typed_of_mem_peerLinks hl
  obtain ⟨input, hinput, rfl⟩ := Option.map_eq_some_iff.mp htype
  refine ⟨peer.definition, remote, input, ?_, hremote, hinput, ?_⟩
  · rw [agent_of_mem_peerLinks hl]
    exact Peers.find?_eq_some_iff.mpr hpeer
  · have houtcome : l.outcome = .ofTypes remote.type input.type := congrArg Link.outcome heq
    rw [← ofTypes_eq_on_iff, ← houtcome]
    exact beq_iff_eq

/-- In every scene, a rule with one output comes to the same for all agents as for each of them in turn,
and no two agents share a link. A category comes to what its outputs come to one by one, for each agent
that the rule means and that has all outputs of the template, and to nothing for the others. Either way
a link is on if and only if the output and the input that it connects are of one type. -/
theorem links_expanded (scene : Scene) :
    (∀ input output,
      let named := fun peer : Peer => (scene.links ⟨.named peer.name, .output input output⟩).toList
      (scene.links ⟨.any, .output input output⟩).toList = scene.peers.toList.flatMap named ∧
      scene.peers.toList.Pairwise fun p q => List.Disjoint (named p) (named q)) ∧
    (∀ selector category,
      let template := fun peer : Peer =>
        (scene.catalog.find? category).or (peer.definition.category? category)
      (∀ l, l ∈ (scene.links ⟨selector, .category category⟩).toList ↔
        ∃ peer ∈ scene.peers.toList, selector.selects peer.name = true ∧
          ∃ c, template peer = some c ∧ peer.definition.satisfies c .outputs = true ∧
            ∃ member ∈ c.slots.slots .output,
              l ∈ (scene.links ⟨.named peer.name, .output member.name member.name⟩).toList) ∧
      ∀ peer ∈ scene.peers.toList,
        (∀ c, template peer = some c → peer.definition.satisfies c .outputs = false) →
          ∀ l ∈ (scene.links ⟨selector, .category category⟩).toList, l.agent ≠ peer.name) ∧
    ∀ r, ∀ l ∈ (scene.links r).toList,
      ∃ d remote input, scene.peers.find? l.agent = some d ∧ d.find? .output l.output = some remote ∧
        scene.inputs.find? .input l.input = some input ∧
        (l.isOn = true ↔ remote.type = input.type) := by
  refine ⟨fun input output => ⟨toList_links_any scene _, ?_⟩, fun selector category => ?_,
    fun r l => isOn_iff_of_mem_links⟩
  · refine scene.peers.ascending.imp_of_mem fun hp hq hpq x hx hy => ?_
    have hp := agent_of_mem_peerLinks ((mem_links_named hp).mp hx)
    have hq := agent_of_mem_peerLinks ((mem_links_named hq).mp hy)
    exact not_before_self x (before_of_names hpq hp hq)
  · have htemplate (peer : Peer) : scene.template? peer category =
        (scene.catalog.find? category).or (peer.definition.category? category) := by
      simp only [template?]
      cases scene.catalog.find? category <;> rfl
    have hmem (l : Link) : l ∈ (scene.links ⟨selector, .category category⟩).toList ↔ _ := mem_links
    refine ⟨fun l => ?_, fun peer hpeer hunfit l hl hagent => ?_⟩
    · rw [hmem]
      refine exists_congr fun peer => and_congr_right fun hpeer => and_congr_right fun _ => ?_
      rw [mem_categoryLinks hpeer, htemplate]
    · obtain ⟨other, hother, _, hl⟩ := (hmem l).mp hl
      obtain rfl : other = peer :=
        Peers.eq_of_name_eq hother hpeer ((agent_of_mem_peerLinks hl).symm.trans hagent)
      obtain ⟨c, hc, hsat, _⟩ := (mem_categoryLinks hother).mp hl
      rw [htemplate] at hc
      exact absurd hsat (Bool.eq_false_iff.mp (hunfit c hc))

def siren : Peer :=
  ⟨"siren", { name := "siren", own := { outputs := [⟨"lit", .integer, .integer 0, false⟩] } }⟩

def glow : Category :=
  { name := "glow", slots := { outputs := [⟨"lit", .bool, .bool false, false⟩] } }

/-- A siren that is lit to a degree, and a lamp that is lit or not. -/
def workshop : Scene :=
  { inputs := { inputs := [⟨"lit", .bool, .bool false, false⟩] }
    peers := .ofList
      [siren, ⟨"lamp", { name := "lamp", own := { outputs := [⟨"lit", .bool, .bool false, false⟩] } }⟩]
    catalog := .ofList [glow] }

theorem siren_left_out :
    (workshop.links ⟨.any, .output "lit" "lit"⟩).toList =
        [⟨"lamp", "lit", "lit", .on⟩, ⟨"siren", "lit", "lit", .incompatible⟩] ∧
      (workshop.links ⟨.any, .category "glow"⟩).toList = [⟨"lamp", "lit", "lit", .on⟩] ∧
      ∀ l ∈ (workshop.links ⟨.any, .category "glow"⟩).toList, l.agent ≠ "siren" := by
  refine ⟨by decide, by decide, ?_⟩
  have hcatalog : workshop.catalog.find? "glow" = some glow := by decide
  have hunfit : ∀ c, (workshop.catalog.find? "glow").or (siren.definition.category? "glow") = some c →
      siren.definition.satisfies c .outputs = false := by
    intro c hc
    rw [hcatalog] at hc
    cases hc
    decide
  exact ((links_expanded workshop).2.1 .any "glow").2 siren (by decide) hunfit

end Scene

end Patchbay
