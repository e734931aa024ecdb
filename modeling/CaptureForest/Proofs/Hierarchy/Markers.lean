import CaptureForest.Proofs.Hierarchy.Signals
import CaptureForest.Proofs.Vulkan.CallMarker

/-! # The markers of a capture

The markers of a hierarchy are the calls that the walks execute, in order: each packet that marks a
call adds one marker, unless the call closes a label (`Hierarchy.ofCapture_markers`). What a packet
marks is found in the bytes of the packet (`Step.Marks`). -/

namespace CaptureForest

/-! ## Steps that mark calls -/

namespace Step

variable {m : Reader} {index : Nat} {x : Step} {call : CallMarker}

/-- The step executes a packet that marks the call: a no-operation packet whose first payload word
has the signature and the number of the call's command. The bytes behind that word, up to the end of
the packet, are the arguments. -/
def Marks (m : Reader) (index : Nat) (x : Step) (call : CallMarker) : Prop :=
  ∃ (ibIndex va : Nat) (header : UInt32) (bytes : Bytes),
    x = .packet ibIndex va .type7 header ∧ Header.opcode header = Opcode.nop ∧
    m.read? index va (4 * (1 + (Header.payloadCount header).toNat)) = some bytes ∧
    (∃ first, Words.at? bytes 4 = some first ∧ CallMarker.signatureOf first = CallMarker.signature ∧
      call.command.id = CallMarker.commandId first) ∧
    call.args = bytes.extract 8

theorem call?_eq_some_iff : x.call? m index = some call ↔ x.Marks m index call := by
  have hof {ibIndex va : Nat} {header : UInt32} {bytes : Bytes}
      (hread : m.read? index va (4 * (1 + (Header.payloadCount header).toNat)) = some bytes) :
      (Step.packet ibIndex va .type7 header).call? m index = some call ↔
        Header.opcode header = Opcode.nop ∧ (∃ first, Words.at? bytes 4 = some first ∧
          CallMarker.signatureOf first = CallMarker.signature ∧
          call.command.id = CallMarker.commandId first) ∧ call.args = bytes.extract 8 := by
    obtain ⟨words, hwords, hbytes⟩ := Reader.words_of_read? hread
    have hdvd : 4 ∣ bytes.size := Dvd.intro _ (m.size_read? hread).symm
    rw [call?_packet hwords, Pass.callOf?, hbytes, ← CallMarker.ofPacket?_ofBytes hdvd]
    simp [PacketKind.opcode?]
  constructor
  · intro h
    cases x with
    | enter | leave => cases h
    | packet ibIndex va kind header =>
      cases hwords : m.words index va (kind.length header) with
      | error e => simp [call?, hwords] at h
      | ok words =>
        cases kind with
        | type4 | unknown =>
          rw [call?_packet hwords] at h
          cases h
        | type7 =>
          obtain ⟨bytes, hread, -⟩ := Reader.words_eq_ok_iff.mp hwords
          obtain ⟨hop, hcall⟩ := (hof hread).mp h
          exact ⟨ibIndex, va, header, bytes, rfl, hop, hread, hcall⟩
  · rintro ⟨ibIndex, va, header, bytes, rfl, hop, hread, hcall⟩
    exact (hof hread).mpr ⟨hop, hcall⟩

/-- The step marks a call that is listed: it does more than close a label. -/
def AddsMarker (m : Reader) (index : Nat) (x : Step) : Prop :=
  ∃ call, x.Marks m index call ∧ call.command.closesLabel = false

theorem addsMarker_iff : x.AddsMarker m index ↔
    (x.call? m index).any (!·.command.closesLabel) = true := by
  simp [AddsMarker, ← call?_eq_some_iff, Option.any_eq_true]

instance : Decidable (x.AddsMarker m index) :=
  decidable_of_decidable_of_iff addsMarker_iff.symm

end Step

theorem Command.closesLabel_eq_false {c : Command} (h : c.opensLabel ∨ c.insertsLabel) :
    c.closesLabel = false := by
  revert h
  cases c <;> decide

/-! ## Markers that are added -/

namespace Pass

variable {o : Options} {m : Reader} {index submit n : Nat} {x : Step} {p q r : Pass}

/-- The node lists a call. -/
structure Shows (printer : CallPrinter) (version : UInt32) (call : CallMarker) (node : Node) :
    Prop where
  kind : node.kind = .marker
  metadata : node.metadata = call.args
  description : call.ListedAs printer version node.description

/-- From `p` to `q` no call is met: there are new nodes, but none of them is a marker. -/
structure MarksNothing (p q : Pass) : Prop where
  nodes : ∃ new : List Node, q.nodes = p.nodes ++ new ∧ ∀ node ∈ new, node.kind ≠ .marker
  metadataVersion : q.metadataVersion = p.metadataVersion
  hasCallMarker : q.hasCallMarker = p.hasCallMarker

theorem MarksNothing.refl (p : Pass) : p.MarksNothing p :=
  ⟨⟨[], Array.appendList_nil.symm, by simp⟩, rfl, rfl⟩

theorem MarksNothing.trans (h : p.MarksNothing q) (h' : q.MarksNothing r) : p.MarksNothing r where
  nodes := by
    obtain ⟨new, hnodes, hnew⟩ := h.nodes
    obtain ⟨more, hnodes', hmore⟩ := h'.nodes
    refine ⟨new ++ more, by rw [hnodes', hnodes, Nodes.append_append_list], fun node hnode => ?_⟩
    exact (List.mem_append.mp hnode).elim (hnew node) (hmore node)
  metadataVersion := h'.metadataVersion.trans h.metadataVersion
  hasCallMarker := h'.hasCallMarker.trans h.hasCallMarker

theorem MarksNothing.ofKind_marker (h : p.MarksNothing q) :
    q.nodes.ofKind .marker = p.nodes.ofKind .marker := by
  obtain ⟨new, hnodes, hnew⟩ := h.nodes
  rw [hnodes, Nodes.ofKind_append_of_ne hnew]

/-- New nodes of which none is a marker, where all that is remembered of calls stays. -/
theorem Adds.marksNothing {new : List Node} {owned shared : Links}
    (hq : p.Adds q new owned shared) (hnew : ∀ node ∈ new, node.kind ≠ .marker)
    (hversion : q.metadataVersion = p.metadataVersion)
    (hcall : q.hasCallMarker = p.hasCallMarker) : p.MarksNothing q :=
  ⟨⟨new, hq.nodes, hnew⟩, hversion, hcall⟩

theorem Settles.marksNothing (h : p.Settles q) : p.MarksNothing q where
  nodes := by
    obtain ⟨new, hnodes, hnew⟩ := h.nodes
    exact ⟨new, hnodes, fun node hnode => (hnew node hnode).2⟩
  metadataVersion := h.metadataVersion
  hasCallMarker := h.hasCallMarker

variable {buffer va : Nat} {kind : PacketKind} {header : UInt32} {words : Array UInt32}

theorem Logs.marksNothing (h : Logs o submit buffer va kind header words p q) :
    p.MarksNothing q := by
  refine h.adds.marksNothing (fun node hnode => ?_) (congrArg Pass.metadataVersion h.context :)
    (congrArg Pass.hasCallMarker h.context :)
  rcases List.mem_cons.mp hnode with rfl | hnode
  · exact nofun
  · rcases packetBelow_kind hnode with hk | hk <;> rw [hk] <;> exact nofun

theorem Works.marksNothing {op? : Option UInt8} (h : Works o submit op? words p q) :
    p.MarksNothing q := by
  cases h with
  | sync _ _ hq hctx | event _ _ hq hctx =>
    exact hq.marksNothing (by simp [syncNode, eventNode]) (congrArg Pass.metadataVersion hctx :)
      (congrArg Pass.hasCallMarker hctx :)
  | nothing => exact .refl p

theorem Shares.marksNothing {packet : Nat} (h : p.Shares packet q) : p.MarksNothing q :=
  h.adds.marksNothing nofun (congrArg Pass.metadataVersion h.context :)
    (congrArg Pass.hasCallMarker h.context :)

/-- A step that marks no call meets none. -/
theorem Turns.marksNothing (h : Turns o m index submit p x q) (hx : x.call? m index = none) :
    p.MarksNothing q := by
  cases h with
  | enter hq =>
    obtain ⟨_, _, hctx⟩ := hq.context_eq
    exact hq.adds.marksNothing (by simp [bufferNode]) (congrArg Pass.metadataVersion hctx :)
      (congrArg Pass.hasCallMarker hctx :)
  | leave =>
    obtain ⟨_, _, _, _, _, hleft⟩ := p.left_eq
    rw [hleft]
    exact { MarksNothing.refl p with }
  | skip => exact .refl p
  | packet _ hq =>
    cases hq with
    | works _ _ _ hr hs hq => exact hr.marksNothing.trans (hs.marksNothing.trans hq.marksNothing)
    | obeys _ hw hc => cases ((Step.call?_packet hw).trans hc).symm.trans hx

/-- A call adds a marker that lists it, unless it closes a label. -/
theorem Obeys.shows {call : CallMarker} (h : Obeys o submit call p q) :
    if call.command.closesLabel then q.nodes = p.nodes
    else ∃ node, q.nodes = p.nodes ++ [node] ∧ Shows o.printer p.metadataVersion call node := by
  have hcall {kind : MarkerKind} (hcloses : call.command.closesLabel = false)
      (hopens : call.command.opensLabel = false) (hinserts : call.command.insertsLabel = false)
      (hq : q.nodes = p.nodes ++ [callNode o p.metadataVersion call kind]) :
      if call.command.closesLabel then q.nodes = p.nodes
      else ∃ node, q.nodes = p.nodes ++ [node] ∧ Shows o.printer p.metadataVersion call node := by
    rw [hcloses]
    exact ⟨_, hq, rfl, rfl, CallMarker.listedAs_text (by simp [hopens, hinserts])⟩
  have hlabel {kind : MarkerKind} (hor : call.command.opensLabel ∨ call.command.insertsLabel)
      (hq : q.nodes = p.nodes ++ [labelNode call kind p.numLabels]) :
      if call.command.closesLabel then q.nodes = p.nodes
      else ∃ node, q.nodes = p.nodes ++ [node] ∧ Shows o.printer p.metadataVersion call node := by
    rw [Command.closesLabel_eq_false hor]
    exact ⟨_, hq, rfl, rfl, CallMarker.listedAs_labelText hor⟩
  cases h with
  | beginsBuffer hc hq => exact hcall (hc ▸ rfl) (hc ▸ rfl) (hc ▸ rfl) hq.nodes
  | endsBuffer hc hq => exact hcall (hc ▸ rfl) (hc ▸ rfl) (hc ▸ rfl) hq.nodes
  | beginsLabel hc hq => exact hlabel (.inl hc) hq.nodes
  | endsLabel hc =>
    rw [hc]
    rfl
  | insertsLabel hc hq => exact hlabel (.inr hc) hq.nodes
  | opensCall hc hq =>
    simp only [Command.isOther, Bool.and_eq_true, Bool.not_eq_true'] at hc
    exact hcall hc.1.2 hc.1.1.2 hc.2 hq.nodes

/-- A step that marks a call adds a marker that lists it, unless the call closes a label. -/
theorem Turns.shows {call : CallMarker} (h : Turns o m index submit p x q)
    (hx : x.call? m index = some call) :
    q.metadataVersion = p.metadataVersion ∧ q.hasCallMarker = true ∧
      if call.command.closesLabel then q.nodes.ofKind .marker = p.nodes.ofKind .marker
      else ∃ n node, q.nodes.ofKind .marker = p.nodes.ofKind .marker ++ [n] ∧
        q.nodes[n]? = some node ∧ Shows o.printer p.metadataVersion call node := by
  cases h with
  | enter | leave => cases hx
  | skip =>
    rw [Step.call?_unknown] at hx
    cases hx
  | packet _ hq =>
    cases hq with
    | works _ hw hc => cases ((Step.call?_packet hw).trans hc).symm.trans hx
    | @obeys _ _ call' r s _ hw hc hr ho =>
      obtain rfl := Option.some.inj (((Step.call?_packet hw).trans hc).symm.trans hx)
      have hkeeps := hr.marksNothing
      have hmarkers : r.marked.nodes.ofKind .marker = p.nodes.ofKind .marker :=
        hkeeps.ofKind_marker
      have hversion : r.marked.metadataVersion = p.metadataVersion := hkeeps.metadataVersion
      refine ⟨(congrArg Pass.metadataVersion ho.still_eq :).trans hversion,
        (congrArg Pass.hasCallMarker ho.still_eq :), ?_⟩
      have hshows := ho.shows
      rw [hversion] at hshows
      split at hshows
      · rename_i hcloses
        rw [if_pos hcloses, ← hmarkers]
        exact congrArg (Nodes.ofKind · .marker) hshows
      · rename_i hcloses
        obtain ⟨node, hnodes, hnode⟩ := hshows
        rw [if_neg hcloses]
        refine ⟨r.marked.nodes.size, node, ?_, ?_, hnode⟩
        · rw [← hmarkers, ← Nodes.ofKind_append_single hnode.kind, ← hnodes]
          rfl
        · exact (congrArg (·[r.marked.nodes.size]?) hnodes).trans Nodes.getElem?_append_head

/-! ## Runs -/

/-- The marker `n` lists the call that a step marks. -/
def MarkerOf (o : Options) (c : Capture) (nodes : Nodes) (n : Nat) (x : Nat × Step) : Prop :=
  ∃ call node, x.2.Marks c.memory x.1 call ∧ nodes[n]? = some node ∧
    Shows o.printer c.metadataVersion call node

variable {c : Capture} {l : List (Nat × Step)}

theorem MarkerOf.append {nodes : Nodes} {new : List Node} {y : Nat × Step}
    (h : MarkerOf o c nodes n y) : MarkerOf o c (nodes ++ new) n y := by
  obtain ⟨call, node, hcall, hnode, hshows⟩ := h
  have hn := (Array.getElem?_eq_some_iff.mp hnode).1
  exact ⟨call, node, hcall, (Nodes.getElem?_append_old hn).trans hnode, hshows⟩

/-- The markers of a pass list the calls that the given steps mark, one for one. -/
structure Marked (o : Options) (c : Capture) (l : List (Nat × Step)) (q : Pass) : Prop where
  metadataVersion : q.metadataVersion = c.metadataVersion
  markers : List.Forall₂ (MarkerOf o c q.nodes) (q.nodes.ofKind .marker)
    (l.filter fun x => x.2.AddsMarker c.memory x.1)
  hasCallMarker : q.hasCallMarker ↔ ∃ x ∈ l, ∃ call, x.2.Marks c.memory x.1 call

theorem Marked.nothing (h : Marked o c l p) (hq : p.MarksNothing q) : Marked o c l q where
  metadataVersion := hq.metadataVersion.trans h.metadataVersion
  markers := by
    rw [hq.ofKind_marker]
    obtain ⟨new, hnodes, -⟩ := hq.nodes
    rw [hnodes]
    exact h.markers.imp fun _ _ hn => hn.append
  hasCallMarker := by rw [hq.hasCallMarker, h.hasCallMarker]

theorem Marked.turns (h : Marked o c l p) (hq : Turns o c.memory index submit p x q)
    (hp : p.Sound) (hs : p.submit = some submit) : Marked o c (l ++ [(index, x)]) q := by
  cases hx : x.call? c.memory index with
  | none =>
    have hnot (call : CallMarker) : ¬x.Marks c.memory index call := fun hmarks => by
      cases hx.symm.trans (Step.call?_eq_some_iff.mpr hmarks)
    have hkeeps := h.nothing (hq.marksNothing hx)
    have hadds : ¬x.AddsMarker c.memory index := fun ⟨call, hmarks, _⟩ => hnot call hmarks
    exact { hkeeps with
      markers := by simpa [hadds] using hkeeps.markers
      hasCallMarker := by simpa [or_and_right, exists_or, hnot] using hkeeps.hasCallMarker }
  | some call =>
    have hmarks : x.Marks c.memory index call := Step.call?_eq_some_iff.mp hx
    obtain ⟨hversion, hfound, hadded⟩ := hq.shows hx
    obtain ⟨new, hnodes⟩ := hq.nodes hp hs
    have hold : List.Forall₂ (MarkerOf o c q.nodes) (p.nodes.ofKind .marker) _ :=
      h.markers.imp fun _ _ hn => hnodes ▸ hn.append
    refine ⟨hversion.trans h.metadataVersion, ?_, ?_⟩
    · rw [List.filter_append]
      split at hadded
      · rename_i hcloses
        have hadds : ¬x.AddsMarker c.memory index := by
          simp [Step.addsMarker_iff, hx, hcloses]
        rw [hadded]
        simpa [hadds] using hold
      · rename_i hcloses
        have hadds : x.AddsMarker c.memory index := by
          simp [Step.addsMarker_iff, hx, hcloses]
        obtain ⟨n, node, hmarkers, hnode, hshows⟩ := hadded
        have hnew : MarkerOf o c q.nodes n (index, x) :=
          ⟨call, node, hmarks, hnode, h.metadataVersion ▸ hshows⟩
        rw [hmarkers]
        simpa [hadds] using List.rel_append hold (.cons hnew .nil)
    · exact iff_of_true hfound ⟨(index, x), by simp, call, hmarks⟩

theorem After.marked {t : List Signal} (h : After o c t p) :
    Marked o c (t.filterMap Signal.step?) p := by
  refine h.follow (fun {q} hq hversion => ?_)
    (fun _ _ hsettles hl => hl.nothing hsettles.marksNothing)
    fun hm _ hs hturns hl => hl.turns hturns hm.sound hs
  obtain ⟨_, _, _, hctx⟩ := hq.context
  have hfound : q.hasCallMarker = false := (congrArg Pass.hasCallMarker hctx :)
  refine ⟨hversion, ?_, by simp [hfound]⟩
  rw [hq.ofKind_eq_nil (by decide)]
  exact .nil

end Pass

namespace Hierarchy

/-- The markers of a hierarchy are the packets that mark a call, in the order in which they are
executed, without the calls that close a label. Each has the arguments and the text of its call. The
hierarchy tells whether any packet marked a call. -/
theorem ofCapture_markers {o : Options} {c : Capture} {h : Hierarchy} (hb : ofCapture o c = .ok h) :
    List.Forall₂ (Pass.MarkerOf o c h.nodes) (h.nodes.ofKind .marker)
      (c.walked.filter fun x => x.2.AddsMarker c.memory x.1) ∧
    (h.hasCallMarker ↔ ∃ x ∈ c.walked, ∃ call, x.2.Marks c.memory x.1 call) := by
  obtain ⟨q, hq, hbecomes⟩ := ofCapture_becomes hb
  have hmarked := hq.marked
  rw [c.signals_steps] at hmarked
  rw [hbecomes.nodes, hbecomes.hasCallMarker]
  exact ⟨hmarked.markers, hmarked.hasCallMarker⟩

/-- A label is opened, a draw call is recorded in a buffer that is called, and the label is closed.
-/
theorem ofCapture_markers_label :
    let c : Capture := {
      submits := [{ engine := .universal, queue := .universal, ibs := [{ va := 0, size := 9 }] }]
      memory := .flat (Words.toBytes #[Header.ofOpcode Opcode.nop 2,
        CallMarker.word .beginDebugUtilsLabel, 0x6261, Header.ofOpcode Opcode.callPfe 3, 36, 0, 2,
        Header.ofOpcode Opcode.nop 1, CallMarker.word .endDebugUtilsLabel,
        Header.ofOpcode Opcode.nop 1, CallMarker.word .draw]) }
    ∃ h n n', ofCapture {} c = .ok h ∧ h.nodes.ofKind .marker = [n, n'] ∧
      Pass.MarkerOf {} c h.nodes n (0, .packet 0 0 .type7 (Header.ofOpcode Opcode.nop 2)) ∧
      Pass.MarkerOf {} c h.nodes n' (0, .packet 0 36 .type7 (Header.ofOpcode Opcode.nop 1)) ∧
      [n, n'].map (fun n => h.nodes[n]?.map (·.description)) = [some "ab", some "vkCmdDraw"] ∧
      h.hasCallMarker := by
  intro c
  have hrun : ∃ h, ofCapture {} c = .ok h ∧ h.nodes.ofKind .marker = [9, 16] ∧
      [9, 16].map (fun n => h.nodes[n]?.map (·.description)) = [some "ab", some "vkCmdDraw"] ∧
      h.hasCallMarker := by
    decide +kernel
  have hwalked : c.walked.filter (fun x => x.2.AddsMarker c.memory x.1) =
      [(0, .packet 0 0 .type7 (Header.ofOpcode Opcode.nop 2)),
        (0, .packet 0 36 .type7 (Header.ofOpcode Opcode.nop 1))] := by
    decide +kernel
  obtain ⟨h, hb, hmarkers, htexts, hfound⟩ := hrun
  obtain ⟨hshown, -⟩ := ofCapture_markers hb
  rw [hmarkers, hwalked] at hshown
  obtain ⟨hn, hrest⟩ := List.forall₂_cons.mp hshown
  exact ⟨h, 9, 16, hb, hmarkers, hn, (List.forall₂_cons.mp hrest).1, htexts, hfound⟩

end Hierarchy

end CaptureForest
