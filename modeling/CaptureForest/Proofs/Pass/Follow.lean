import CaptureForest.Proofs.Pass.Buffer
import CaptureForest.Proofs.Pass.Submit
import CaptureForest.Proofs.Walk.Coherent
import Mathlib.Data.List.Forall2

/-! # Passes that follow a walk

A pass learns of a walk by its steps alone. `Pass.Follows` says that it is where the walk is: the
nodes on the stack of the engine that is walked represent the open buffers, one for one, and the
other stack is empty. Each step of the walk keeps this (`Pass.step_leads`). -/

namespace CaptureForest

/-- The step executes a packet, and is not a word that starts none. -/
def Step.isPacket : Step → Bool
  | .packet _ _ kind _ => kind ≠ .unknown
  | _ => false

/-- The recorded call that a step executes. -/
def Step.call? (m : Reader) (index : Nat) : Step → Option CallMarker
  | .packet _ va kind header =>
    match m.words index va (kind.length header) with
    | .ok words => Pass.callOf? (kind.opcode? header) words.toArray
    | .error _ => none
  | _ => none

theorem Step.call?_packet {m : Reader} {index ibIndex va : Nat} {kind : PacketKind}
    {header : UInt32} {words : Vector UInt32 (kind.length header)}
    (h : m.words index va (kind.length header) = .ok words) :
    (Step.packet ibIndex va kind header).call? m index =
      Pass.callOf? (kind.opcode? header) words.toArray := by
  simp only [call?, h]

/-- The step executes a call that executes command buffers. -/
def Step.Executes (m : Reader) (index : Nat) (x : Step) : Prop :=
  (x.call? m index).map (·.command) = some .executeCommands

instance {m : Reader} {index : Nat} {x : Step} : Decidable (x.Executes m index) :=
  inferInstanceAs (Decidable (_ = _))

theorem Step.call?_unknown {m : Reader} {index ibIndex va : Nat} {header : UInt32} :
    (Step.packet ibIndex va .unknown header).call? m index = none := by
  unfold call?
  dsimp only
  split <;> rfl

namespace Nodes

variable {nodes : Nodes} {new : List Node} {node : Node} {n submit : Nat} {k : NodeKind}

/-- The nodes of a kind, in order. -/
def ofKind (nodes : Nodes) (k : NodeKind) : List Nat :=
  (List.range nodes.size).filter (nodes.kind? · = some k)

@[simp]
theorem mem_ofKind : n ∈ nodes.ofKind k ↔ nodes.kind? n = some k := by
  simpa [ofKind] using fun h => kind?_lt h

/-- The nodes of some kinds, when others are added. -/
theorem filter_append (P : Option NodeKind → Bool) :
    ((List.range (nodes ++ new).size).filter fun n => P (Nodes.kind? (nodes ++ new) n)) =
      ((List.range nodes.size).filter fun n => P (nodes.kind? n)) ++
        ((List.range new.length).filter fun i => P (new[i]?.map (·.kind))).map
          (nodes.size + ·) := by
  rw [size_append_list, List.range_add, List.filter_append, List.filter_map]
  congr 1
  · refine List.filter_congr fun n hn => ?_
    rw [kind?, kind?, getElem?_append_old (List.mem_range.mp hn)]
  · congr 1
    refine List.filter_congr fun i _ => ?_
    rw [Function.comp_apply, kind?_append_new]

theorem ofKind_append : Nodes.ofKind (nodes ++ new) k = nodes.ofKind k ++
    ((List.range new.length).filter fun i => new[i]?.map (·.kind) = some k).map
      (nodes.size + ·) :=
  filter_append fun kind => decide (kind = some k)

theorem ofKind_append_of_ne (h : ∀ node ∈ new, node.kind ≠ k) :
    Nodes.ofKind (nodes ++ new) k = nodes.ofKind k := by
  rw [ofKind_append, List.filter_eq_nil_iff.mpr, List.map_nil, List.append_nil]
  intro i _ hi
  obtain ⟨node, hnode, hk⟩ := Option.map_eq_some_iff.mp (of_decide_eq_true hi)
  exact h node (List.mem_of_getElem? hnode) hk

theorem ofKind_append_single (h : node.kind = k) :
    Nodes.ofKind (nodes ++ [node]) k = nodes.ofKind k ++ [nodes.size] := by
  rw [ofKind_append]
  simp [List.range_succ, h]

/-- The buffers behind a node, in order. -/
def buffersBehind (nodes : Nodes) (submit : Nat) : List Nat :=
  (nodes.ofKind .ib).filter (submit < ·)

/-- The node `n` was made for the given visit of the walk that began with the node `submit`: as
many buffers stand between these two nodes as the walk had entered before. -/
structure Represents (nodes : Nodes) (submit n : Nat) (visit : Walk.Visit) : Prop where
  place : (nodes.buffersBehind submit)[visit.number]? = some n
  node : nodes[n]? = some (Pass.bufferNode visit.ibIndex visit.ib visit.kind)

variable {visit : Walk.Visit}

theorem buffersBehind_append_of_ne (h : ∀ node ∈ new, node.kind ≠ .ib) :
    Nodes.buffersBehind (nodes ++ new) submit = nodes.buffersBehind submit := by
  rw [buffersBehind, ofKind_append_of_ne h, buffersBehind]

theorem buffersBehind_append_single (h : node.kind = .ib) (hsubmit : submit < nodes.size) :
    Nodes.buffersBehind (nodes ++ [node]) submit = nodes.buffersBehind submit ++ [nodes.size] := by
  rw [buffersBehind, ofKind_append_single h, List.filter_append, buffersBehind]
  simp [hsubmit]

theorem Represents.append (h : nodes.Represents submit n visit) :
    Nodes.Represents (nodes ++ new) submit n visit where
  place := by
    have hplace := h.place
    unfold buffersBehind at hplace ⊢
    rw [ofKind_append, List.filter_append,
      List.getElem?_append_left (List.getElem?_eq_some_iff.mp hplace).1]
    exact hplace
  node := by
    rw [getElem?_append_old (Array.getElem?_eq_some_iff.mp h.node).1]
    exact h.node

theorem represents_new (hsubmit : submit < nodes.size)
    (hnumber : visit.number = (nodes.buffersBehind submit).length) :
    Nodes.Represents (nodes ++ [Pass.bufferNode visit.ibIndex visit.ib visit.kind]) submit
      nodes.size visit where
  place := by
    rw [buffersBehind_append_single rfl hsubmit, hnumber]
    exact List.getElem?_concat_length
  node := getElem?_append_head

theorem Represents.kind? (h : nodes.Represents submit n visit) : nodes.kind? n = some .ib := by
  rw [Nodes.kind?, h.node]
  rfl

end Nodes

namespace IbRun

theorem toList_eq (r : IbRun) : ∃ below, r.toList = r.top :: below := by
  unfold toList top
  rcases List.eq_nil_or_concat r.chained.toList with h | ⟨ns, n, h⟩
  · have : r.chained = #[] := Array.toList_eq_nil_iff.mp h
    exact ⟨[], by simp [this]⟩
  · have : r.chained.back? = some n := by rw [← Array.getLast?_toList, h]; simp
    exact ⟨ns.reverse ++ [r.start], by rw [this, h]; simp⟩

end IbRun

namespace Pass

variable {p q : Pass} {submit : Nat} {pos pos' : Walk.Position}

/-- The stack of the engine that is not walked. -/
def idleIbs (p : Pass) : IbStack := if p.onConstantEngine then p.drawIbs else p.constantIbs

/-- The pass is where the walk is that began with the node `submit`. -/
structure Follows (p : Pass) (submit : Nat) (pos : Walk.Position) : Prop where
  sound : p.Sound
  isOpen : p.submit = some submit
  entered : (p.nodes.buffersBehind submit).length = pos.entered
  runs : List.Forall₂ (List.Forall₂ (p.nodes.Represents submit)) (p.ibs.map IbRun.toList)
    (pos.runs.map Walk.OpenRun.visits)
  idle : p.idleIbs = []
  engine : ∀ v ∈ pos.visits, v.ib.constantEngine = p.onConstantEngine

theorem ibs_of_site (h : q.site = p.site) : q.ibs = p.ibs :=
  (congrArg (fun s : Site => if s.onConstantEngine then s.constantIbs else s.drawIbs) h :)

theorem idleIbs_of_site (h : q.site = p.site) : q.idleIbs = p.idleIbs :=
  (congrArg (fun s : Site => if s.onConstantEngine then s.drawIbs else s.constantIbs) h :)

theorem modifyIbs_ibs {f : IbStack → IbStack} : (p.modifyIbs f).ibs = f p.ibs := by
  unfold modifyIbs ibs
  split <;> simp_all

theorem modifyIbs_idleIbs {f : IbStack → IbStack} : (p.modifyIbs f).idleIbs = p.idleIbs := by
  unfold modifyIbs idleIbs
  split <;> simp_all

theorem modifyIbs_onConstantEngine {f : IbStack → IbStack} :
    (p.modifyIbs f).onConstantEngine = p.onConstantEngine := by
  unfold modifyIbs
  split <;> rfl

namespace Follows

/-- The open buffers are on the stack, the innermost on top. -/
theorem stack (h : p.Follows submit pos) :
    List.Forall₂ (p.nodes.Represents submit) p.ibs.nodes pos.visits := by
  have := List.rel_flatten h.runs
  rwa [← List.flatMap_def, ← List.flatMap_def] at this

theorem ibs_eq_nil (h : p.Follows submit pos) (hr : pos.runs = []) : p.ibs = [] := by
  have hruns := h.runs
  rw [hr, List.map_nil, List.forall₂_nil_right_iff] at hruns
  exact List.map_eq_nil_iff.mp hruns

/-- Outside of all buffers both stacks are empty. -/
theorem stacks_eq_nil (h : p.Follows submit pos) (hr : pos.runs = []) :
    p.drawIbs = [] ∧ p.constantIbs = [] := by
  have hibs := h.ibs_eq_nil hr
  have hidle := h.idle
  unfold ibs at hibs
  unfold idleIbs at hidle
  split at hibs <;> simp_all

/-- The innermost buffer is on top of the stack. -/
theorem top? {r : Walk.OpenRun} {rs : List Walk.OpenRun} (h : p.Follows submit pos)
    (hr : pos.runs = r :: rs) :
    ∃ s ss, p.ibs = s :: ss ∧ p.nodes.Represents submit s.top r.latest ∧
      List.Forall₂ (p.nodes.Represents submit) s.toList r.visits ∧
      List.Forall₂ (List.Forall₂ (p.nodes.Represents submit)) (ss.map IbRun.toList)
        (rs.map Walk.OpenRun.visits) := by
  have hruns := h.runs
  rw [hr, List.map_cons, List.forall₂_cons_right_iff] at hruns
  obtain ⟨_, _, hs, hss, heq⟩ := hruns
  obtain ⟨s, ss, hibs, rfl, rfl⟩ := List.map_eq_cons_iff.mp heq
  obtain ⟨below, hbelow⟩ := s.toList_eq
  refine ⟨s, ss, hibs, ?_, hs, hss⟩
  rw [hbelow] at hs
  cases hs with
  | cons htop => exact htop

/-- Only new buffers are seen by the stacks. -/
theorem grow (new : List Node) (h : p.Follows submit pos) (hq : q.Sound)
    (hnodes : q.nodes = p.nodes ++ new) (hnew : ∀ node ∈ new, node.kind ≠ .ib)
    (hsite : q.site = p.site)
    (hruns : pos'.runs.map Walk.OpenRun.visits = pos.runs.map Walk.OpenRun.visits)
    (hentered : pos'.entered = pos.entered) : q.Follows submit pos' where
  sound := hq
  isOpen := (congrArg Site.submit hsite :).trans h.isOpen
  entered := by
    rw [hnodes, Nodes.buffersBehind_append_of_ne hnew, hentered]
    exact h.entered
  runs := by
    rw [ibs_of_site hsite, hruns, hnodes]
    exact h.runs.imp fun _ _ hs => hs.imp fun _ _ hn => hn.append
  idle := (idleIbs_of_site hsite).trans h.idle
  engine v hv := by
    rw [Walk.Position.visits, List.flatMap_def, hruns, ← List.flatMap_def] at hv
    exact (h.engine v hv).trans (congrArg Site.onConstantEngine hsite :).symm

/-- The engine of the open buffers is the one that is walked. -/
theorem engine_eq {constantEngine : Bool} (h : p.Follows submit pos)
    (hengine : ∀ v ∈ pos.visits, v.ib.constantEngine = constantEngine) :
    pos.runs = [] ∨ constantEngine = p.onConstantEngine := by
  cases hr : pos.runs with
  | nil => exact .inl rfl
  | cons r rs =>
    have hmem : r.latest ∈ pos.visits := by simp [Walk.Position.visits, hr, Walk.OpenRun.visits]
    exact .inr ((hengine r.latest hmem).symm.trans (h.engine r.latest hmem))

/-- A buffer is entered on the engine of the open buffers, or on any if there are none. -/
theorem onEngine {constantEngine : Bool} (h : p.Follows submit pos)
    (hengine : ∀ v ∈ pos.visits, v.ib.constantEngine = constantEngine) :
    (p.onEngine constantEngine).Follows submit pos := by
  rcases h.engine_eq hengine with hr | rfl
  · obtain ⟨hdraw, hconstant⟩ := h.stacks_eq_nil hr
    exact {
      sound := { h.sound with stacked := { h.sound.stacked with } }
      isOpen := h.isOpen
      entered := h.entered
      runs := by simp [hr, ibs, Pass.onEngine, hdraw, hconstant]
      idle := by simp [idleIbs, Pass.onEngine, hdraw, hconstant]
      engine := hengine }
  · exact h

/-- The node of a new buffer is pushed on the stack. -/
theorem enter {visit : Walk.Visit} (h : p.Follows submit pos) (hq : q.Sound)
    (hnodes : q.nodes = p.nodes ++ [bufferNode visit.ibIndex visit.ib visit.kind])
    (hctx : q.context = (p.entered p.nodes.size visit.kind).context)
    (hengine : visit.ib.constantEngine = p.onConstantEngine)
    (hentered : pos'.entered = pos.entered + 1)
    (hvisits : ∀ v ∈ pos'.visits, v = visit ∨ v ∈ pos.visits)
    (hruns : List.Forall₂ (List.Forall₂ (q.nodes.Represents submit))
      ((p.ibs.push p.nodes.size visit.kind).map IbRun.toList)
      (pos'.runs.map Walk.OpenRun.visits)) : q.Follows submit pos' := by
  have hsite : q.site = (p.modifyIbs (IbStack.push · p.nodes.size visit.kind)).site :=
    (congrArg site hctx :)
  have honEngine : q.onConstantEngine = p.onConstantEngine :=
    (congrArg Site.onConstantEngine hsite :).trans modifyIbs_onConstantEngine
  exact {
    sound := hq
    isOpen := ((congrArg Site.submit hsite :).trans modifyIbs_submit).trans h.isOpen
    entered := by
      rw [hnodes, Nodes.buffersBehind_append_single rfl
        (Nodes.kind?_lt (h.sound.submit submit h.isOpen)), hentered, List.length_append, h.entered]
      rfl
    runs := by
      rw [ibs_of_site hsite, modifyIbs_ibs]
      exact hruns
    idle := ((idleIbs_of_site hsite).trans modifyIbs_idleIbs).trans h.idle
    engine := fun v hv => by
      rw [honEngine]
      rcases hvisits v hv with rfl | hv
      · exact hengine
      · exact h.engine v hv }

/-- The innermost run is popped off the stack. -/
theorem leave {r : Walk.OpenRun} {rs : List Walk.OpenRun} (h : p.Follows submit pos)
    (hr : pos.runs = r :: rs) (hq : q.Sound) (hnodes : q.nodes = p.nodes)
    (hsite : q.site = (p.modifyIbs List.tail).site) : q.Follows submit { pos with runs := rs } := by
  obtain ⟨s, ss, hibs, -, -, hss⟩ := h.top? hr
  have honEngine : q.onConstantEngine = p.onConstantEngine :=
    (congrArg Site.onConstantEngine hsite :).trans modifyIbs_onConstantEngine
  exact {
    sound := hq
    isOpen := ((congrArg Site.submit hsite :).trans modifyIbs_submit).trans h.isOpen
    entered := by rw [hnodes]; exact h.entered
    runs := by
      rw [ibs_of_site hsite, modifyIbs_ibs, hibs, hnodes]
      exact hss
    idle := ((idleIbs_of_site hsite).trans modifyIbs_idleIbs).trans h.idle
    engine := fun v hv => by
      rw [honEngine]
      refine h.engine v ?_
      rw [Walk.Position.visits, hr, List.flatMap_cons]
      exact List.mem_append_right _ hv }

end Follows

/-! ## Steps -/

/-- What a step of a walk leaves behind beside the stacks: a packet is filed under the submit and
the innermost buffer. -/
def Takes (p q : Pass) (submit : Nat) : Step → Prop
  | .packet _ va kind _ => kind = .unknown ∧ q = p ∨ kind ≠ .unknown ∧ ∃ buffer word,
      p.ibs.top? = some buffer ∧
        p.Files q submit buffer (packetNode p.onConstantEngine va kind word)
  | _ => p.Keeps q

theorem Takes.keeps {step : Step} (h : p.Takes q submit step) (hstep : step.isPacket = false) :
    p.Keeps q := by
  cases step with
  | enter | leave => exact h
  | packet _ _ kind =>
    have hk : kind = .unknown := by simpa [Step.isPacket] using hstep
    rcases h with ⟨-, rfl⟩ | ⟨hk', -⟩
    · exact .refl q
    · exact absurd hk hk'

/-- What a step of a walk does to a pass. -/
inductive Turns (o : Options) (m : Reader) (index submit : Nat) (p : Pass) : Step → Pass → Prop
  | enter {ibIndex : Nat} {ib : IndirectBuffer} {kind : IbKind} {q : Pass} :
    Enters o submit ibIndex ib kind p q → Turns o m index submit p (.enter ibIndex ib kind) q
  | leave {ibIndex : Nat} {ib : IndirectBuffer} {r : IbRun} :
    p.ibs.head? = some r →
    Turns o m index submit p (.leave ibIndex ib) p.popped.scopeLeft.beginCleared
  | skip {ibIndex va : Nat} {header : UInt32} :
    Turns o m index submit p (.packet ibIndex va .unknown header) p
  | packet {ibIndex va : Nat} {kind : PacketKind} {header : UInt32} {q : Pass} :
    kind ≠ .unknown → Runs o m index submit va kind header p q →
    Turns o m index submit p (.packet ibIndex va kind header) q

/-- A packet is filed, and what it does then is in the list of changes. -/
theorem Runs.filed {o : Options} {m : Reader} {index va : Nat} {kind : PacketKind}
    {header : UInt32} (hq : Runs o m index submit va kind header p q) (h : p.Sound)
    (hs : p.submit = some submit) :
    ∃ (buffer : Nat) (words : Vector UInt32 (kind.length header)) (r : Pass),
      p.ibs.top? = some buffer ∧ m.words index va (kind.length header) = .ok words ∧
      Logs o submit buffer va kind (words.get ⟨0, kind.length_pos header⟩) words.toArray p r ∧
      r.Course q := by
  cases hq with
  | @works buffer words r s _ hb hread _ hr hw hshare =>
    have hsub := (congrArg Site.submit hr.site :).trans hs
    have hsound := (hw.sound (hr.sound h) hsub).1
    have hmem : p.nodes.size ∈ s.beginPackets := by
      have hctx : s.beginPackets = r.beginPackets := by
        cases hw with
        | sync _ _ _ hctx => exact (congrArg Pass.beginPackets hctx :)
        | event _ _ _ hctx => exact (congrArg Pass.beginPackets hctx :)
        | nothing => rfl
      have hctx' : r.beginPackets = p.beginPackets.push p.nodes.size :=
        (congrArg Pass.beginPackets hr.context :)
      rw [hctx, hctx']
      exact Array.mem_push_self
    exact ⟨buffer, words, r, hb, hread, hr,
      (Course.single (hr.sound h) (.works hsub hw)).change hsound (.shares hmem hshare)⟩
  | @obeys buffer words call r s hb hread _ hr ho =>
    have hsub := (congrArg Site.submit hr.site :).trans hs
    have hibs : r.marked.ibs ≠ [] := by
      have heq : r.marked.ibs = p.ibs := (congrArg Pass.ibs hr.context :)
      rw [heq]
      rintro hnil
      rw [hnil] at hb
      cases hb
    exact ⟨buffer, words, r, hb, hread, hr, ((Course.single (hr.sound h) .marks).change
      (hr.sound h).marked (.obeys hsub hibs ho)).change (ho.sound (hr.sound h).marked hsub).1
        .clears⟩

/-- A packet does nothing that is not in the list of changes. -/
theorem Runs.course {o : Options} {m : Reader} {index va : Nat} {kind : PacketKind}
    {header : UInt32} (hq : Runs o m index submit va kind header p q) (h : p.Sound)
    (hs : p.submit = some submit) : p.Course q := by
  obtain ⟨_, _, _, hb, -, hr, hcourse⟩ := hq.filed h hs
  exact (Course.single h (.logs hs hb hr)).trans hcourse

/-- A step of a walk does nothing that is not in the list of changes. -/
theorem Turns.course {o : Options} {m : Reader} {index : Nat} {step : Step}
    (hq : Turns o m index submit p step q) (h : p.Sound) (hs : p.submit = some submit) :
    p.Course q := by
  cases hq with
  | enter hq => exact .single h (.enters hs hq)
  | leave hr => exact .single h (.leaves hr)
  | skip => exact .refl p
  | packet _ hq => exact hq.course h hs

/-- The causes for which a step fails. -/
inductive StepFails (m : Reader) (index : Nat) (ibs : List IndirectBuffer) : Step → Error → Prop
  | place {k : Nat} {ib : IndirectBuffer} {kind : IbKind} :
    k < ibs.length → 1 <<< Aux.ibIndexBits ≤ k →
    StepFails m index ibs (.enter k ib kind) (.violation (.ibIndexTooLarge k))
  | address {ibIndex va : Nat} {kind : PacketKind} {header : UInt32} :
    kind ≠ .unknown → 1 <<< Aux.packetAddressBits ≤ va →
    StepFails m index ibs (.packet ibIndex va kind header) (.violation (.packetAddressTooLarge va))
  | memory {ibIndex va : Nat} {kind : PacketKind} {header : UInt32} {e : Error} :
    kind ≠ .unknown → m.Misses index e → StepFails m index ibs (.packet ibIndex va kind header) e

variable {m : Reader} {index : Nat} {ibs : List IndirectBuffer}

theorem enterBuffer_step (o : Options) (visit : Walk.Visit) (h : p.Follows submit pos)
    (hpos : ∀ v ∈ pos.visits, v.ib.constantEngine = visit.ib.constantEngine)
    (hchained : visit.kind = .chain → pos.runs ≠ []) (hindex : visit.ibIndex < ibs.length)
    (hnumber : visit.number = pos.entered) (hentered : pos'.entered = pos.entered + 1)
    (hvisits : ∀ v ∈ pos'.visits, v = visit ∨ v ∈ pos.visits)
    (hruns : ∀ nodes : Nodes, nodes.Represents submit p.nodes.size visit →
      ∀ s : IbStack, List.Forall₂ (List.Forall₂ (nodes.Represents submit)) (s.map IbRun.toList)
        (pos.runs.map Walk.OpenRun.visits) →
      List.Forall₂ (List.Forall₂ (nodes.Represents submit))
        ((s.push p.nodes.size visit.kind).map IbRun.toList) (pos'.runs.map Walk.OpenRun.visits)) :
    Leads (enterBuffer o visit.ibIndex visit.ib visit.kind) p
      (fun _ q => q.Follows submit pos' ∧ p.Keeps q ∧
        p.Turns o m index submit (.enter visit.ibIndex visit.ib visit.kind) q)
      fun e _ => StepFails m index ibs (.enter visit.ibIndex visit.ib visit.kind) e := by
  have hon := h.onEngine hpos
  have hsubmit := Nodes.kind?_lt (h.sound.submit submit h.isOpen)
  refine (enterBuffer_leads h.sound h.isOpen o visit.ibIndex visit.ib visit.kind).mono ?_ ?_
  · rintro _ q ⟨-, hq, hadds, hctx⟩
    refine ⟨hon.enter hq hadds.nodes hctx rfl hentered hvisits ?_, ?_, .enter ⟨?_, ?_, hadds, hctx⟩⟩
    · refine hruns q.nodes ?_ _ (hon.runs.imp fun _ _ hs => hs.imp fun _ _ hn => ?_)
      · rw [hadds.nodes]
        exact Nodes.represents_new hsubmit (hnumber.trans h.entered.symm)
      · rw [hadds.nodes]
        exact hn.append
    · refine hadds.keeps_none (by simp [bufferNode]) ?_
      exact (congrArg Pass.engines hctx :).trans modifyIbs_engines
    · exact (h.engine_eq hpos).symm.imp_right h.stacks_eq_nil
    · intro hchain hnil
      have hruns := h.runs
      rw [hnil, List.map_nil, List.forall₂_nil_left_iff] at hruns
      exact hchained hchain (List.map_eq_nil_iff.mp hruns)
  · rintro _ _ ⟨rfl, hle⟩
    exact .place hindex hle

/-- A packet leaves the stacks as they are. -/
theorem packet_step {r : Walk.OpenRun} {rs : List Walk.OpenRun} {kind : PacketKind}
    {header : UInt32} {pending : Except Error (Option (IndirectBuffer × IbKind))} (o : Options)
    (h : p.Follows submit pos) (hr : pos.runs = r :: rs) :
    Leads (packet o m index r.next kind header) p
      (fun _ q => q.Follows submit { pos with runs := r.pass kind header :: rs, pending } ∧
        p.Takes q submit (.packet r.latest.ibIndex r.next kind header) ∧
        p.Turns o m index submit (.packet r.latest.ibIndex r.next kind header) q)
      fun e _ => StepFails m index ibs (.packet r.latest.ibIndex r.next kind header) e := by
  obtain ⟨s, ss, hibs, htop, -⟩ := h.top? hr
  have hruns : (r.pass kind header :: rs).map Walk.OpenRun.visits =
      pos.runs.map Walk.OpenRun.visits := by rw [hr]; rfl
  have htop? : p.ibs.top? = some s.top := by rw [hibs]; rfl
  by_cases hk : kind = .unknown
  · refine leads_ite.mpr ⟨fun _ => ⟨?_, .inl ⟨hk, rfl⟩, hk ▸ .skip⟩, fun hk' => absurd hk hk'⟩
    exact h.grow [] h.sound Array.appendList_nil.symm (by simp) rfl hruns rfl
  · refine (packet_leads o h.sound h.isOpen htop? htop.kind? hk).mono ?_ ?_
    · intro _ q hruns'
      obtain ⟨hq, buffer, word, hbuffer, hfiles⟩ := hruns'.sound h.sound h.isOpen
      obtain ⟨new, hnodes, hkinds⟩ := hfiles.nodes
      refine ⟨h.grow _ hq hnodes ?_ hfiles.site hruns rfl,
        .inr ⟨hk, buffer, word, hbuffer, hfiles⟩, .packet hk hruns'⟩
      intro node hnode hib
      rcases List.mem_cons.mp hnode with rfl | hnode
      · cases hib
      · simpa [hib] using hkinds node hnode
    · rintro e _ (hmisses | ⟨rfl, hva⟩)
      · exact .memory hk (Reader.misses_of_words hmisses)
      · exact .address hk hva

theorem leaveBuffer_step {r : Walk.OpenRun} {rs : List Walk.OpenRun} (o : Options)
    (h : p.Follows submit pos) (hr : pos.runs = r :: rs) :
    Succeeds leaveBuffer p fun _ q => q.Follows submit { pos with runs := rs } ∧ p.Keeps q ∧
      p.Turns o m index submit (.leave r.latest.ibIndex r.latest.ib) q := by
  obtain ⟨s, ss, hibs, -⟩ := h.top? hr
  have hhead : p.ibs.head? = some s := by rw [hibs]; rfl
  refine (leaveBuffer_succeeds h.sound h.isOpen hhead).imp ?_
  rintro _ q ⟨hleft, hq⟩
  obtain ⟨_, _, _, heq⟩ := p.popped.scopeLeft_eq
  have hsite : p.popped.scopeLeft.site = p.popped.site := (congrArg site heq :)
  have hnodes : q.nodes = p.nodes := by
    rw [hleft]
    exact (congrArg Pass.nodes heq :).trans modifyIbs_nodes
  have hedges : q.edges = p.edges := by
    rw [hleft]
    exact (congrArg Pass.edges heq :).trans modifyIbs_edges
  refine ⟨h.leave hr hq hnodes (by rw [hleft]; exact hsite), ?_, by
    rw [hleft]; exact .leave hhead⟩
  exact {
    engines := by rw [hleft]; exact (congrArg Site.engines hsite :).trans modifyIbs_engines
    nodes := ⟨[], hnodes.trans Array.appendList_nil.symm, by simp⟩
    shared := fun _ _ _ => by rw [shared, hedges, shared]
    submits := fun _ _ _ => by rw [shared, hedges, shared]
    markers := fun _ _ _ => by rw [shared, hedges, shared] }

/-- A pass that follows a walk can take each of its steps, unless there is one of the known causes
to fail. -/
theorem step_leads (o : Options) {step : Step} (h : p.Follows submit pos) (hpos : pos.Coherent ibs)
    (move : Walk.Move m index ibs pos step pos') :
    Leads (Pass.step o m index step) p
      (fun _ q => q.Follows submit pos' ∧ p.Takes q submit step ∧
        p.Turns o m index submit step q)
      fun e _ => StepFails m index ibs step e := by
  cases move with
  | @list ib hr _ hib =>
    refine enterBuffer_step o ⟨pos.listed, ib, .normal, pos.entered⟩ h ?_
      (fun heq => by cases heq) ?_ rfl rfl ?_ ?_
    · simp [Walk.Position.visits, hr]
    · exact (List.getElem?_eq_some_iff.mp hib).1
    · simp [Walk.Position.visits, Walk.Position.openRun, Walk.OpenRun.visits, hr]
    · intro nodes hnew s hs
      exact .cons (.cons hnew .nil) hs
  | @call r rs ib hr hpend =>
    refine enterBuffer_step o ⟨r.latest.ibIndex, ib, .call, pos.entered⟩ h
      (hpos.leads hpend).2 (fun heq => by cases heq) ?_ rfl rfl ?_ ?_
    · exact hpos.index_lt r.latest (by simp [Walk.Position.visits, hr, Walk.OpenRun.visits])
    · simp [Walk.Position.visits, Walk.Position.openRun, Walk.OpenRun.visits]
    · intro nodes hnew s hs
      exact .cons (.cons hnew .nil) hs
  | @chain r rs ib hr hpend =>
    refine enterBuffer_step o ⟨r.latest.ibIndex, ib, .chain, pos.entered⟩ h
      (hpos.leads hpend).2 (fun _ => by simp [hr]) ?_ rfl rfl ?_ ?_
    · exact hpos.index_lt r.latest (by simp [Walk.Position.visits, hr, Walk.OpenRun.visits])
    · simp [Walk.Position.visits, Walk.Position.extendRun, Walk.OpenRun.visits, hr]
    · intro nodes hnew s hs
      rw [hr, List.map_cons, List.forall₂_cons_right_iff] at hs
      obtain ⟨_, _, hs, hss, heq⟩ := hs
      obtain ⟨s, ss, rfl, rfl, rfl⟩ := List.map_eq_cons_iff.mp heq
      refine .cons ?_ hss
      have htoList : IbRun.toList { s with chained := s.chained.push p.nodes.size } =
          p.nodes.size :: s.toList := by simp [IbRun.toList]
      rw [htoList]
      exact .cons hnew hs
  | packet hr => exact packet_step o h hr
  | leave hr => exact (leaveBuffer_step o h hr).leads fun _ _ => id

end Pass

end CaptureForest
