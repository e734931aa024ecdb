import CaptureForest.Proofs.Hierarchy.Calls
import CaptureForest.Proofs.Hierarchy.Submits
import CaptureForest.Proofs.Hierarchy.Numbers
import CaptureForest.Proofs.Pass.Chains
import CaptureForest.Proofs.Pass.Flags
import CaptureForest.Proofs.Pass.Paired
import CaptureForest.Proofs.Walk.Listed

/-! # The engines of packets and buffers

A packet, and what is below it, carries the engine of the listed buffer that it is executed under,
whatever calls and chains lead to it, and buffers under listed buffers of different engines do not
own one another (`Hierarchy.ofCapture_engines`). A node for a buffer is made while the walk is under
a listed buffer, and its owner is the submit or the node of a buffer under the same
(`Pass.After.rooted`). -/

namespace CaptureForest

/-- In the walk of the submit at place `index`, the buffer of a visit is open under the listed buffer
`ib`, or is that buffer itself. -/
def Capture.OpensUnder (c : Capture) (index : Nat) (visit : Walk.Visit) (ib : IndirectBuffer) :
    Prop :=
  ∃ s pos, c.submits[index]? = some s ∧ c.Reaches index pos ∧ visit ∈ pos.visits ∧
    pos.Descends s.ibs visit.ibIndex ib

namespace View

/-- Buffers own buffers, in the views that list them. -/
theorem of_owns_ib {v : View} {b : NodeKind} (h : v.owns .ib b) : v ∈ withBuffers ∧ b = .ib := by
  revert h
  cases v <;> cases b <;> decide

end View

namespace Nodes

variable {nodes : Nodes} {new : List Node} {c : Capture} {n s a b : Nat} {ib ib' : IndirectBuffer}

/-- The node `n` stands for a buffer that is entered under the listed buffer `ib`. -/
def RunsUnder (nodes : Nodes) (c : Capture) (n : Nat) (ib : IndirectBuffer) : Prop :=
  ∃ index s submit visit, c.submits[index]? = some s ∧
    nodes[submit]? = some (Pass.submitNode index s) ∧ nodes.OfSubmit n submit ∧
    nodes.Represents submit n visit ∧ c.OpensUnder index visit ib

theorem OfSubmit.append (h : nodes.OfSubmit n s) (hn : n < nodes.size) :
    Nodes.OfSubmit (nodes ++ new) n s := by
  have hset : {s | Nodes.kind? (nodes ++ new) s = some .submit ∧ s ≤ n} =
      {s | nodes.kind? s = some .submit ∧ s ≤ n} := by
    refine Set.ext fun t => and_congr_left fun (hle : t ≤ n) => ?_
    rw [kind?, getElem?_append_old (Nat.lt_of_le_of_lt hle hn), kind?]
  rw [OfSubmit, hset]
  exact h

theorem Represents.ibIndex? {visit : Walk.Visit} (h : nodes.Represents s n visit) :
    nodes.ibIndex? n = some visit.ibIndex := by
  rw [Nodes.ibIndex?, aux?, h.node]
  rfl

namespace RunsUnder

theorem kind? (h : nodes.RunsUnder c n ib) : nodes.kind? n = some .ib := by
  obtain ⟨_, _, _, _, -, -, -, hn, -⟩ := h
  exact hn.kind?

theorem append (h : nodes.RunsUnder c n ib) : Nodes.RunsUnder (nodes ++ new) c n ib := by
  have hlt := kind?_lt h.kind?
  obtain ⟨index, s, submit, visit, hs, hsubmit, hof, hn, hopens⟩ := h
  refine ⟨index, s, submit, visit, hs, ?_, hof.append hlt, hn.append, hopens⟩
  rw [getElem?_append_old (Array.getElem?_eq_some_iff.mp hsubmit).1]
  exact hsubmit

/-- The listed buffer is the one at the node's place in its submit. -/
theorem listed {submit index k : Nat} {s s' : Submit} (h : nodes.RunsUnder c n ib)
    (hof : nodes.OfSubmit n submit) (hsubmit : nodes[submit]? = some (Pass.submitNode index s))
    (hs : c.submits[index]? = some s') (hk : nodes.ibIndex? n = some k) :
    s'.ibs[k]? = some ib := by
  obtain ⟨index', _, submit', visit, -, hsubmit', hof', hn, _, _, hs', -, -, hdescends⟩ := h
  obtain rfl : submit = submit' := hof.unique hof'
  have haux := congrArg Node.aux (Option.some.inj (hsubmit.symm.trans hsubmit'))
  obtain ⟨-, rfl⟩ := Aux.submit.inj haux
  cases hs.symm.trans hs'
  obtain rfl : k = visit.ibIndex := Option.some.inj (hk.symm.trans hn.ibIndex?)
  exact hdescends.listed

/-- Buffers of one submit and one place are under the same listed buffer. -/
theorem eq (ha : nodes.RunsUnder c a ib) (hb : nodes.RunsUnder c b ib')
    (hsame : nodes.SameSubmit a b) (hindex : nodes.ibIndex? a = nodes.ibIndex? b) : ib = ib' := by
  obtain ⟨index, s, submit, visit, hs, hsubmit, hof, hn, -⟩ := id ha
  have hlisted := ha.listed hof hsubmit hs hn.ibIndex?
  have hlisted' := hb.listed (hsame.ofSubmit_iff.mp hof) hsubmit hs (hindex.symm.trans hn.ibIndex?)
  exact Option.some.inj (hlisted.symm.trans hlisted')

end RunsUnder

end Nodes

namespace Pass

variable {o : Options} {c : Capture} {before : List Submit} {s : Submit} {t : List Step}
  {x : Step} {p q : Pass} {submit n : Nat}

/-! ## Buffers under listed buffers -/

/-- At each moment all nodes on the stack stand for buffers under one listed buffer. -/
theorem Moment.runsUnder (h : Moment o c before s t p) : ∃ k, ∀ n ∈ p.ibs.nodes,
    p.nodes.ibIndex? n = some k ∧ ∃ ib, p.nodes.RunsUnder c n ib := by
  obtain ⟨after, hlisted⟩ := h.listed
  obtain ⟨rest, hrest⟩ := h.steps
  obtain ⟨pos, submit, hp⟩ := h.during
  obtain ⟨earlier, hlast⟩ := hp.last
  have hget : c.submits[before.length]? = some s := by rw [hlisted]; simp
  have hnode : p.nodes[submit]? = some (submitNode before.length s) := (hp.filing.last hlast).2.node
  have hreaches : c.Reaches before.length pos := ⟨s, t, rest, hget, h.walked, hrest.symm, hp.path⟩
  have hof {n : Nat} (hn : n ∈ p.ibs.nodes) : p.nodes.OfSubmit n submit := by
    obtain ⟨_, hs, hle⟩ := hp.reached.apart.recent_ibs hn
    cases hp.follows.isOpen.symm.trans hs
    exact ⟨⟨hp.follows.sound.submit submit hs, hle⟩,
      fun _ ht => hp.reached.apart.latest hs ht.1⟩
  by_cases hne : pos.visits = []
  · have hstack := hp.follows.stack
    rw [hne, List.forall₂_nil_right_iff] at hstack
    exact ⟨0, by simp [hstack]⟩
  · obtain ⟨k, ib, hdescends⟩ := hp.path.descends hne
    refine ⟨k, fun n hn => ?_⟩
    obtain ⟨visit, hvisit, hrepresents⟩ := exists_of_mem_forall₂ hp.follows.stack hn
    have hindex := hdescends.index visit hvisit
    refine ⟨by rw [hrepresents.ibIndex?, hindex], ib, before.length, s, submit, visit, hget, hnode,
      hof hn, hrepresents, s, pos, hget, hreaches, hvisit, ?_⟩
    rw [hindex]
    exact hdescends

/-- All buffers are under listed buffers, and they own buffers under the same. -/
structure Rooted (c : Capture) (p : Pass) : Prop where
  roots : ∀ n, p.nodes.kind? n = some .ib → ∃ ib, p.nodes.RunsUnder c n ib
  index : ∀ v ∈ View.withBuffers, ∀ {a b}, p.nodes.kind? a = some .ib → p.OwnsBuffer v a b →
    p.nodes.ibIndex? b = p.nodes.ibIndex? a

/-- Where no buffer is entered, all buffers stay where they are. -/
theorem Rooted.rests (h : p.Rooted c) (hq : p.Rests q) : q.Rooted c := by
  obtain ⟨new, hnodes, hnew⟩ := hq.nodes
  have hold {n : Nat} (hn : q.nodes.kind? n = some .ib) : p.nodes.kind? n = some .ib :=
    Nodes.kind?_of_append hnew (hnodes ▸ hn)
  refine ⟨fun n hn => ?_, fun v hv a b ha hb => ?_⟩
  · obtain ⟨ib, hroot⟩ := h.roots n (hold hn)
    exact ⟨ib, hnodes ▸ hroot.append⟩
  · have hb' := (hq.ownsBuffer_iff hv).mp hb
    rw [hnodes, Nodes.ibIndex?_append (Nodes.kind?_lt hb'.1),
      Nodes.ibIndex?_append (Nodes.kind?_lt (hold ha))]
    exact h.index v hv (hold ha) hb'

/-- A buffer is entered under the listed buffer of all that is on the stack. -/
theorem Rooted.enters {ibIndex : Nat} {ib : IndirectBuffer} {kind : IbKind} (h : p.Rooted c)
    (hp : p.Sound) (hs : p.submit = some submit) (hmoment : Moment o c before s t q)
    (hq : Enters o submit ibIndex ib kind p q) : q.Rooted c := by
  obtain ⟨k, hstack⟩ := hmoment.runsUnder
  have hpushed {n : Nat} : n ∈ q.ibs.nodes ↔ n = p.nodes.size ∨ n ∈ p.ibs.nodes := by
    rw [hq.ibs_eq]
    exact IbStack.mem_nodes_push
  have hnew := hpushed.mpr (.inl rfl)
  refine ⟨fun n hn => ?_, fun v hv a b ha hb => ?_⟩
  · rcases Nat.lt_or_ge n p.nodes.size with hlt | hge
    · rw [hq.adds.nodes, Nodes.kind?, Nodes.getElem?_append_old hlt] at hn
      obtain ⟨ib, hroot⟩ := h.roots n hn
      exact ⟨ib, hq.adds.nodes ▸ hroot.append⟩
    · have hle := Nodes.kind?_lt hn
      rw [hq.adds.nodes, Nodes.size_append_list, List.length_singleton] at hle
      obtain rfl : n = p.nodes.size := by omega
      exact (hstack _ hnew).2
  · rcases (hq.ownsBuffer_iff hp hv).mp hb with hb | ⟨rfl, rfl⟩
    · obtain ⟨_, _, ha', -⟩ := hp.arranged.fits hb.2
      obtain rfl := Option.some.inj ((hq.adds.kind? ha').symm.trans ha)
      rw [hq.adds.nodes, Nodes.ibIndex?_append (Nodes.kind?_lt hb.1),
        Nodes.ibIndex?_append (Nodes.kind?_lt ha')]
      exact h.index v hv ha' hb
    · -- The owner is a buffer, so it is on the stack with the new one.
      rcases ibOwner_mem o (p.onEngine ib.constantEngine) submit kind with heq | hmem
      · rw [heq, hq.adds.kind? (hp.submit submit hs)] at ha
        cases ha
      · rw [hq.onEngine_ibs] at hmem
        rw [(hstack _ hnew).1, (hstack _ (hpushed.mpr (.inr hmem))).1]

theorem Rooted.turns (h : p.Rooted c) (hp : p.Sound) (hs : p.submit = some submit)
    (hmoment : Moment o c before s (t ++ [x]) q)
    (hq : p.Turns o c.memory before.length submit x q) : q.Rooted c := by
  cases hq with
  | enter hq => exact h.enters hp hs hmoment hq
  | leave => exact h.rests (left_rests p)
  | skip => exact h.rests (.refl p)
  | packet _ hq => exact h.rests (hq.rests hp hs)

/-- All buffers that a build has come to are under listed buffers, and so are those that they own. -/
theorem After.rooted {t : List Signal} (h : After o c t p) : p.Rooted c := by
  refine h.hear (I := fun _ => Rooted c) (fun hq _ => ?_) (fun {_ index _ _ _} hsound hq hl => ?_)
    (fun hm hm' hs hturns hl => hl.turns hm.sound hs hm' hturns) fun {_ index _ _ _} hsound hq hl => ?_
  · refine ⟨fun n hn => ?_, fun v _ a _ ha => ?_⟩
    · rcases hq.kinds hn with hk | hk <;> cases hk
    · rcases hq.kinds ha with hk | hk <;> cases hk
  · obtain ⟨engine, hengine, -⟩ := require_ok hq
    have hrests := (submitStart_rests hsound hengine index).of_ok hq
    exact hl.rests hrests
  · obtain ⟨submit, hs, -⟩ := openSubmit_ok hq
    have hrests := (submitEnd_rests hsound hs index).of_ok hq
    exact hl.rests hrests

/-- What is below a buffer is a buffer under the same listed one. -/
theorem Rooted.below {v : View} {a m : Nat} {ib : IndirectBuffer} (h : p.Rooted c) (hp : p.Sound)
    (hapart : p.Apart) (ha : p.nodes.RunsUnder c a ib)
    (hm : Relation.TransGen (fun a b => b ∈ p.owned v a) a m) : p.nodes.RunsUnder c m ib := by
  have hstep {a b : Nat} (ha : p.nodes.RunsUnder c a ib) (hb : b ∈ p.owned v a) :
      p.nodes.RunsUnder c b ib := by
    obtain ⟨_, _, hka, hkb, howns, -⟩ := hp.arranged.fits hb
    cases ha.kind?.symm.trans hka
    obtain ⟨hv, rfl⟩ := View.of_owns_ib howns
    obtain ⟨ib', hroot⟩ := h.roots b hkb
    have hindex := h.index v hv ha.kind? ⟨hkb, hb⟩
    have hsame := hapart.owned hb (by rw [ha.kind?]; simp)
    rwa [ha.eq hroot hsame hindex.symm]
  induction hm with
  | single hm => exact hstep ha hm
  | tail _ hb ih => exact hstep ih hb

end Pass

/-! ## The end -/

namespace Pass

variable {p : Pass}

theorem Started.flagged {engines : List Engine} (h : p.Started engines) : p.Flagged := by
  intro v a b k _ hb hk
  rcases h.kinds hb with rfl | rfl <;> rcases hk with hk | hk <;> cases hk

theorem Reached.flagged (h : p.Reached) (hp : p.Sound) : p.Flagged :=
  h.induct (I := fun q => q.Sound → q.Flagged) (fun hq _ => hq.flagged)
    (fun hq hc hl hr => hc.flagged hq hr (hl hq)) hp

end Pass

/-- Every packet is filed under its execution, in the submit that shares it. -/
theorem Filed.exists_of_filing {c : Capture} {p : Pass} {k : Nat}
    {begun : List (Submit × Nat × List Step)} (h : p.Filing c begun)
    (hk : p.nodes.kind? k = some .packet) : ∃ x b submit s, Filed c p.nodes p.shared k x b ∧
      p.nodes[submit]? = some (Pass.submitNode x.index s) ∧ k ∈ p.shared .engine submit := by
  obtain ⟨submit, hsubmit, hmem⟩ := h.packets k hk
  obtain ⟨⟨s, index, t⟩, -, hlists⟩ := exists_of_mem_forall₂ h.submits (Nodes.mem_ofKind.mpr hsubmit)
  obtain ⟨ks, xs, hks, hfiled, -⟩ := hlists.packets
  have hshared := hmem .engine (by decide)
  obtain ⟨x, -, rfl, b, hx⟩ := exists_of_mem_forall₂ hfiled (hks .engine (by decide) ▸ hshared)
  exact ⟨x, b, submit, s, hx, hlists.node, hshared⟩

/-- A packet is executed under a listed buffer, on its engine. -/
theorem Capture.Executes.opensUnder {c : Capture} {x : Execution} (h : c.Executes x) :
    ∃ ib, c.OpensUnder x.index x.visit ib ∧ x.visit.ib.constantEngine = ib.constantEngine := by
  obtain ⟨s, t, rest, pos, r, rs, hs, hwalked, ht, hpath, hr, hvisit⟩ := h
  have hmem : x.visit ∈ pos.visits := by simp [Walk.Position.visits, hr, Walk.OpenRun.visits, hvisit]
  obtain ⟨k, ib, hdescends⟩ := hpath.descends (List.ne_nil_of_mem hmem)
  refine ⟨ib, ⟨s, pos, hs, ⟨s, t, x.step :: rest, hs, hwalked, ht, hpath⟩, hmem, ?_⟩,
    hdescends.engine _ hmem⟩
  rw [hdescends.index _ hmem]
  exact hdescends

/-- The buffer of an execution is under the listed buffer that the packet is executed under. -/
theorem Filed.runsUnder {c : Capture} {p : Pass} {n b submit : Nat} {x : Execution} {s : Submit}
    {ib : IndirectBuffer} (h : Filed c p.nodes p.shared n x b) (hapart : p.Apart)
    (hroots : ∀ n, p.nodes.kind? n = some .ib → ∃ ib, p.nodes.RunsUnder c n ib)
    (hsubmit : p.nodes[submit]? = some (Pass.submitNode x.index s))
    (hshared : n ∈ p.shared .engine submit) (hopens : c.OpensUnder x.index x.visit ib) :
    p.nodes.RunsUnder c b ib := by
  obtain ⟨_, _, -, -, hrepresents⟩ := h.buffer
  -- The buffer shares the packet with the submit that is told by the execution.
  have hof : p.nodes.OfSubmit b submit := by
    have hkind : p.nodes.kind? submit = some .submit := by rw [Nodes.kind?, hsubmit]; rfl
    have hb := (h.shared .engine (by decide) b hrepresents.kind?).mpr rfl
    have hsame := (hapart.shared hshared).trans (hapart.shared hb).symm
    exact hsame.ofSubmit_iff.mp ⟨⟨hkind, Nat.le_refl _⟩, fun _ ht => ht.2⟩
  obtain ⟨ib', hroot⟩ := hroots b hrepresents.kind?
  obtain ⟨s', _, hs', -, -, hdescends⟩ := hopens
  have hlisted := hroot.listed hof hsubmit hs' hrepresents.ibIndex?
  obtain rfl := Option.some.inj (hlisted.symm.trans hdescends.listed)
  exact hroot

namespace Hierarchy

open Relation

variable {o : Options} {c : Capture} {h : Hierarchy}

/-- What the nodes of a hierarchy have to do with the engines of a capture's listed buffers. -/
structure OnEngines (c : Capture) (h : Hierarchy) : Prop where
  /-- A packet and all that is below it are on the engine of the listed buffer that the packet is
  executed under. -/
  packets : ∀ n, h.nodes.kind? n = some .packet → ∃ x b ib, Filed c h.nodes h.shared n x b ∧
    c.OpensUnder x.index x.visit ib ∧ h.nodes.RunsUnder c b ib ∧
    h.packetOnConstantEngine n = .ok ib.constantEngine ∧
    ∀ v m, TransGen (h.Owns v) n m → h.regFieldOnConstantEngine m = .ok ib.constantEngine
  buffers : ∀ n, h.nodes.kind? n = some .ib → ∃! ib, h.nodes.RunsUnder c n ib
  /-- No buffer is below one that runs on the other engine. -/
  apart : ∀ v a b ib ib', h.nodes.RunsUnder c a ib → h.nodes.RunsUnder c b ib' →
    ib.constantEngine ≠ ib'.constantEngine → ¬TransGen (h.Owns v) a b

theorem regFieldOnConstantEngine_eq_ok {n : Nat} {k : NodeKind} {ce : Bool} (ht : h.nodes.Typed)
    (hn : h.nodes.kind? n = some k) (hk : k = .reg ∨ k = .field)
    (hce : h.nodes.constantEngine? n = some ce) : h.regFieldOnConstantEngine n = .ok ce := by
  obtain ⟨aux, haux, hce⟩ := Option.bind_eq_some_iff.mp hce
  refine ofKinds_eq_ok.mpr ⟨⟨k, by simpa using hk, hn⟩, ?_⟩
  cases aux with
  | regField => rw [haux]; exact hce
  | packet =>
    cases hn.symm.trans (ht.kind?_packet haux)
    rcases hk with hk | hk <;> cases hk
  | _ => cases hce

/-- A packet and all registers and fields below it carry the engine of the listed buffer that the packet
is executed under, through any calls and chains. Every buffer is under one listed buffer, and none is
below a buffer that is under one of the other engine. -/
theorem ofCapture_engines (hb : ofCapture o c = .ok h) : h.OnEngines c := by
  obtain ⟨r, hafter, hnodes, hbakes⟩ := ofCapture_after hb
  have hsound := hafter.sound
  have hrooted := hafter.rooted
  have hapart := hafter.reached.apart
  have hbelow {v : View} {a b : Nat} (hab : TransGen (h.Owns v) a b) :
      TransGen (fun a b => b ∈ r.owned (Pass.source v) a) a b :=
    TransGen.mono (fun _ _ hab => Pass.mem_owned_of_allEdges
      (by rwa [Owns, (hbakes v).children] at hab)) _ _ hab
  refine {
    packets := fun n hn => ?_
    buffers := fun n hn => ?_
    apart := fun v a b ib ib' ha hb' hne hab => hne ?_ }
  · obtain ⟨q, hq, hnodes', hbakes'⟩ := (ofCapture_spec o c).1 h hb
    obtain ⟨x, b, submit, s, hfiled, hsubmit, hshared⟩ :=
      Filed.exists_of_filing hq.filing (hnodes' ▸ hn)
    obtain ⟨ib, hopens, hengine⟩ := hfiled.executes.opensUnder
    obtain ⟨word, hpacket⟩ := hfiled.packet
    have hroots : ∀ n, q.nodes.kind? n = some .ib → ∃ ib, q.nodes.RunsUnder c n ib := by
      rw [← hnodes', hnodes]
      exact hrooted.roots
    have hroot := hfiled.runsUnder hq.reached.apart hroots hsubmit hshared hopens
    have hcarries : r.nodes.constantEngine? n = some ib.constantEngine := by
      rw [← hnodes, hnodes', Nodes.constantEngine?, Nodes.aux?, hpacket, ← hengine]
      rfl
    refine ⟨x, b, ib, ?_, hopens, hnodes' ▸ hroot, ofKind_eq_ok.mpr ⟨hn, ?_⟩, fun v m hm => ?_⟩
    · rw [hnodes']
      exact hfiled.congr fun v hv => shared_eq hbakes' (by revert v; decide)
    · rw [hnodes', Nodes.aux?, hpacket, ← hengine]
      rfl
    · have hflagged : r.Flagged := hafter.reached.flagged hsound
      obtain ⟨⟨k, hk, hor⟩, heq⟩ := hflagged.below hsound (hnodes ▸ hn) rfl (hbelow hm)
      rw [← hnodes] at hk heq hcarries
      exact regFieldOnConstantEngine_eq_ok (hnodes ▸ hafter.reached.typed) hk hor
        (heq.trans hcarries)
  · obtain ⟨ib, hroot⟩ := hrooted.roots n (hnodes ▸ hn)
    rw [hnodes]
    exact ⟨ib, hroot, fun ib' hroot' => hroot'.eq hroot .refl rfl⟩
  · rw [hnodes] at ha hb'
    rw [(hrooted.below hsound hapart ha (hbelow hab)).eq hb' .refl rfl]

/-- A buffer for the constant engine that calls another one, which writes a register, and a buffer for
the draw engine. -/
theorem ofCapture_engines_call :
    let c : Capture := {
      submits := [
        { engine := .universal, queue := .universal,
          ibs := [{ va := 0, size := 4, constantEngine := true }] },
        { engine := .universal, queue := .universal, ibs := [{ va := 24, size := 1 }] }]
      memory := .flat (Words.toBytes #[Header.ofOpcode Opcode.callPfe 3, 16, 0, 2,
        Header.ofRegisters 1 1, 7, Header.ofOpcode Opcode.drawAuto 0]) }
    ∃ h, ofCapture {} c = .ok h ∧ h.packetOnConstantEngine 13 = .ok true ∧
      h.regFieldOnConstantEngine 14 = .ok true ∧ h.packetOnConstantEngine 18 = .ok false ∧
      h.OnEngines c := by
  intro c
  have hrun : ∃ h, ofCapture {} c = .ok h ∧ h.packetOnConstantEngine 13 = .ok true ∧
      h.regFieldOnConstantEngine 14 = .ok true ∧ h.packetOnConstantEngine 18 = .ok false := by
    decide +kernel
  obtain ⟨h, hb, hpacket, hreg, hpacket'⟩ := hrun
  exact ⟨h, hb, hpacket, hreg, hpacket', ofCapture_engines hb⟩

end Hierarchy

end CaptureForest
