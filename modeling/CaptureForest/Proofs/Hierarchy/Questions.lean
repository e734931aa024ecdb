import CaptureForest.Proofs.Hierarchy.Numbers
import CaptureForest.Proofs.Hierarchy.Walks
import CaptureForest.Proofs.Pass.TypedActions

/-! # Questions about one kind of node

A question about one kind of node looks at the kind first and then at the form of the data. In every
session all nodes carry the data of their kinds, so the second look finds nothing wrong where the first
has not: a question is answered for all nodes of its kind and for no others (`Hierarchy.Answers`). -/

namespace CaptureForest

namespace Pass

variable {o : Options} {m : Reader} {index : Nat}

/-! ## Sessions -/

theorem start_keepsTyped {engines : List Engine} : KeepsTyped (start engines) := by
  refine .bind (.modify fun _ _ => .empty) fun _ => ?_
  refine .bind (addNode_keepsTyped (by simp [Aux.kinds])) fun root => .forM fun engine => ?_
  refine .bind (addNode_keepsTyped (by simp [Aux.kinds])) fun node => ?_
  exact .bind addOwned_keepsTyped fun _ => modify_keepsTyped fun _ => rfl

-- An action without variables would be run when a statement about it is unified with another.
attribute [local irreducible] start

/-- A walk hands its steps to the pass one by one. -/
theorem walk_keepsTyped {ibs : List IndirectBuffer} : KeepsTyped (walk o m index ibs) := by
  rw [walk, Walk.run_eq_replay]
  exact .bind (.forM fun _ => step_keepsTyped) fun _ => .ofExcept

theorem runSubmit_keepsTyped {s : Submit} : KeepsTyped (runSubmit o m index s) := by
  refine .bind submitStart_keepsTyped fun _ => .ite ?_ submitEnd_keepsTyped
  exact .bind walk_keepsTyped fun _ => submitEnd_keepsTyped

theorem finish_keepsTyped : KeepsTyped finish := by
  unfold finish
  refine .bind .get fun p => .bind (modify_keepsTyped fun _ => rfl) fun _ => ?_
  split
  · exact .throw
  · exact .bind .get fun _ => .bind (.set .empty) fun _ => .pure

theorem build_keepsTyped {c : Capture} : KeepsTyped (build o c) := by
  refine .bind start_keepsTyped fun _ => .bind (modify_keepsTyped fun _ => rfl) fun _ => ?_
  exact .bind (.forM fun _ => runSubmit_keepsTyped) fun _ => finish_keepsTyped

theorem buildStream_keepsTyped {engine queue : Engine} {words : Array UInt32} :
    KeepsTyped (buildStream o engine queue words) := by
  unfold buildStream
  split
  · refine .bind start_keepsTyped fun _ => ?_
    exact .bind runSubmit_keepsTyped fun _ => finish_keepsTyped
  · exact fun _ hp => hp

theorem serve_keepsTyped {request : Request} : KeepsTyped (serve o request) := by
  cases request with
  | build => exact .discard build_keepsTyped
  | buildStream => exact .discard buildStream_keepsTyped
  | submitStart => exact submitStart_keepsTyped
  | submitEnd => exact submitEnd_keepsTyped
  | step => exact step_keepsTyped

/-- The pass that a request leaves is the state behind it, also where it fails. -/
theorem leftBy_eq_stateAfter {α : Type} (x : PassM α) (p : Pass) : leftBy x p = stateAfter x p := by
  unfold leftBy stateAfter EStateM.run
  cases x p <;> rfl

/-- In a session all nodes carry the data of their kinds. -/
theorem session_typed (o : Options) (requests : List Request) :
    (session o requests).nodes.Typed := by
  simp only [session, leftBy_eq_stateAfter]
  exact stateAfterAll_induct (P := fun p : Pass => p.nodes.Typed) .empty fun _ => serve_keepsTyped

/-- A build that is asked of the pass comes to a hierarchy. -/
def BuildsTo (p : Pass) (o : Options) (h : Hierarchy) : Prop :=
  (∃ c, answer (build o c) p = .ok h) ∨
    ∃ engine queue words, answer (buildStream o engine queue words) p = .ok h

-- As above, with whole builds.
attribute [local irreducible] build buildStream

theorem BuildsTo.isBuilt {p : Pass} {h : Hierarchy} (hb : p.BuildsTo o h) : h.IsBuilt := by
  obtain ⟨c, hb⟩ | ⟨engine, queue, words, hb⟩ := hb
  · exact .inl ⟨o, c, answer_build o c p ▸ hb⟩
  · exact .inr ⟨o, engine, queue, words, answer_buildStream o engine queue words p ▸ hb⟩

end Pass

namespace Hierarchy

variable {α : Type} {h : Hierarchy} {n : Nat} {k expected : NodeKind} {kinds : List NodeKind}
  {read : Aux → Option α} {carries : Aux → α → Prop}

/-! ## Answers -/

/-- A node of another kind is not looked into. -/
theorem ofKinds_of_not_mem (hn : h.nodes.kind? n = some k) (hk : k ∉ kinds) :
    h.ofKinds kinds expected read n = .error (.kindMismatch n k expected) := by
  obtain ⟨node, hnode, rfl⟩ := Option.map_eq_some_iff.mp hn
  unfold ofKinds Hierarchy.node
  rw [hnode]
  simp only [bind, Except.bind, if_neg hk]
  rfl

theorem ofKinds_of_le (hn : h.numNodes ≤ n) :
    h.ofKinds kinds expected read n = .error (.nodeOutOfRange n h.numNodes) := by
  unfold ofKinds Hierarchy.node
  rw [Array.getElem?_eq_none hn]
  rfl

/-- What the data of a kind always has is found in every node of the kind. -/
theorem exists_ofKinds (ht : h.nodes.Typed)
    (hread : ∀ aux : Aux, ∀ k ∈ kinds, k ∈ aux.kinds → ∃ a, read aux = some a ∧ carries aux a)
    (hn : ∃ k ∈ kinds, h.nodes.kind? n = some k) :
    ∃ aux a, h.nodes.aux? n = some aux ∧ carries aux a ∧
      h.ofKinds kinds expected read n = .ok a := by
  obtain ⟨k, hk, hkind⟩ := hn
  obtain ⟨aux, haux, hmem⟩ := ht.aux?_of_kind hkind
  obtain ⟨a, ha, hcarries⟩ := hread aux k hk hmem
  have hbind : (h.nodes.aux? n).bind read = some a := by rw [haux, Option.bind_some, ha]
  exact ⟨aux, a, haux, hcarries, ofKinds_eq_ok.mpr ⟨⟨k, hk, hkind⟩, hbind⟩⟩

/-- If every node of the kinds has an answer, an error is about another node or about none. -/
theorem ofKinds_eq_error {e : Error}
    (hok : (∃ k ∈ kinds, h.nodes.kind? n = some k) → ∃ a, h.ofKinds kinds expected read n = .ok a) :
    h.ofKinds kinds expected read n = .error e ↔
      (∃ k, h.nodes.kind? n = some k ∧ k ∉ kinds ∧ e = .kindMismatch n k expected) ∨
        h.numNodes ≤ n ∧ e = .nodeOutOfRange n h.numNodes := by
  constructor
  · intro he
    rcases Nat.lt_or_ge n h.numNodes with hlt | hge
    · have hnode : h.nodes[n]? = some h.nodes[n] := Array.getElem?_eq_getElem hlt
      have hkind : h.nodes.kind? n = some h.nodes[n].kind := by
        rw [Nodes.kind?, hnode, Option.map_some]
      by_cases hk : h.nodes[n].kind ∈ kinds
      · obtain ⟨a, ha⟩ := hok ⟨_, hk, hkind⟩
        cases he.symm.trans ha
      · rw [ofKinds_of_not_mem hkind hk] at he
        exact .inl ⟨_, hkind, hk, (Except.error.inj he).symm⟩
    · rw [ofKinds_of_le hge] at he
      exact .inr ⟨hge, (Except.error.inj he).symm⟩
  · rintro (⟨k, hkind, hk, rfl⟩ | ⟨hge, rfl⟩)
    · exact ofKinds_of_not_mem hkind hk
    · exact ofKinds_of_le hge

/-- The question `ask` is about nodes of the given kinds. It is answered for these and no others, by
what their data carries. The error for any other node names its kind, which is never one of those that
the question is about, and the error for a number without a node names the number of nodes. -/
structure Answers (h : Hierarchy) (kinds : List NodeKind) (expected : NodeKind)
    (carries : Aux → α → Prop) (ask : Nat → Except Error α) : Prop where
  ok_iff : ∀ n, (∃ a, ask n = .ok a) ↔ ∃ k ∈ kinds, h.nodes.kind? n = some k
  carried : ∀ n a, ask n = .ok a → ∃ aux, h.nodes.aux? n = some aux ∧ carries aux a
  error_iff : ∀ n e, ask n = .error e ↔
    (∃ k, h.nodes.kind? n = some k ∧ k ∉ kinds ∧ e = .kindMismatch n k expected) ∨
      h.numNodes ≤ n ∧ e = .nodeOutOfRange n h.numNodes

theorem answers_ofKinds (ht : h.nodes.Typed)
    (hread : ∀ aux : Aux, ∀ k ∈ kinds, k ∈ aux.kinds → ∃ a, read aux = some a ∧ carries aux a) :
    h.Answers kinds expected carries (h.ofKinds kinds expected read) := by
  have hok {n : Nat} (hn : ∃ k ∈ kinds, h.nodes.kind? n = some k) :
      ∃ a, h.ofKinds kinds expected read n = .ok a := by
    obtain ⟨_, a, -, -, ha⟩ := exists_ofKinds ht hread hn
    exact ⟨a, ha⟩
  refine {
    ok_iff := fun n => ⟨fun ⟨a, ha⟩ => (ofKinds_eq_ok.mp ha).1, hok⟩
    carried := fun n a ha => ?_
    error_iff := fun n e => ofKinds_eq_error hok }
  obtain ⟨aux, a', haux, hcarries, ha'⟩ := exists_ofKinds ht hread (ofKinds_eq_ok.mp ha).1
  rw [ha] at ha'
  cases ha'
  exact ⟨aux, haux, hcarries⟩

theorem answers_ofKind {kind : NodeKind} (ht : h.nodes.Typed)
    (hread : ∀ aux : Aux, kind ∈ aux.kinds → ∃ a, read aux = some a ∧ carries aux a) :
    h.Answers [kind] kind carries (h.ofKind kind read) :=
  answers_ofKinds ht fun aux _ hk => List.mem_singleton.mp hk ▸ hread aux

/-- Every question about one kind of node is answered for that kind, and only for it. -/
structure AnswersByKind (h : Hierarchy) : Prop where
  submitEngine : h.Answers [.submit] .submit (fun aux engine => ∃ i, aux = .submit engine i)
    h.submitEngine
  submitIndex : h.Answers [.submit] .submit (fun aux i => ∃ engine, aux = .submit engine i)
    h.submitIndex
  ibIndex : h.Answers [.ib] .ib (fun aux i => ∃ kind size captured, aux = .ib i kind size captured)
    h.ibIndex
  ibKind : h.Answers [.ib] .ib (fun aux kind => ∃ i size captured, aux = .ib i kind size captured)
    h.ibKind
  ibSize : h.Answers [.ib] .ib (fun aux size => ∃ i kind captured, aux = .ib i kind size captured)
    h.ibSize
  ibCaptured : h.Answers [.ib] .ib
    (fun aux captured => ∃ i kind size, aux = .ib i kind size captured) h.ibCaptured
  markerKind : h.Answers [.marker] .marker (fun aux kind => ∃ id, aux = .marker kind id)
    h.markerKind
  markerId : h.Answers [.marker] .marker (fun aux id => ∃ kind, aux = .marker kind id) h.markerId
  eventId : h.Answers [.event] .event (fun aux id => aux = .event id) h.eventId
  packetAddress : h.Answers [.packet] .packet
    (fun aux address => ∃ opcode ce, aux = .packet address opcode ce) h.packetAddress
  packetOpcode : h.Answers [.packet] .packet
    (fun aux opcode => ∃ address ce, aux = .packet address opcode ce) h.packetOpcode
  packetOnConstantEngine : h.Answers [.packet] .packet
    (fun aux ce => ∃ address opcode, aux = .packet address opcode ce) h.packetOnConstantEngine
  /-- This one is asked of registers and fields. -/
  regFieldOnConstantEngine : h.Answers [.reg, .field] .reg (fun aux ce => aux = .regField ce)
    h.regFieldOnConstantEngine
  syncKind : h.Answers [.sync] .sync (fun aux kind => ∃ s, aux = .sync s ∧ s.kind = kind)
    h.syncKind
  syncInfo : h.Answers [.sync] .sync (fun aux info => ∃ s, aux = .sync s ∧ s.info = info)
    h.syncInfo

theorem answersByKind (ht : h.nodes.Typed) : h.AnswersByKind := by
  constructor
  case regFieldOnConstantEngine =>
    refine answers_ofKinds ht fun aux k hk hmem => ?_
    have hor : k = .reg ∨ k = .field := by simpa using hk
    rcases hor with rfl | rfl <;> cases aux <;> simp_all [Aux.kinds]
  all_goals
    refine answers_ofKind ht fun aux hmem => ?_
    cases aux <;> simp_all [Aux.kinds]

theorem IsBuilt.typed (hb : h.IsBuilt) : h.nodes.Typed := by
  obtain ⟨c, q, hq, hnodes, -⟩ := hb.finishes
  exact hnodes ▸ hq.reached.typed

/-- Whatever a session has asked for, in any order and with any failures, all nodes of its pass carry
the data of their kinds. So do the nodes of every hierarchy that it builds then. There each question
about one kind of node is answered for that kind only, by what the data carries, and otherwise the
error tells what was found instead. -/
theorem session_answersByKind (o : Options) (requests : List Request) :
    (Pass.session o requests).nodes.Typed ∧
      ∀ h, (Pass.session o requests).BuildsTo o h → h.nodes.Typed ∧ h.AnswersByKind :=
  ⟨Pass.session_typed o requests,
    fun _ hb => ⟨hb.isBuilt.typed, answersByKind hb.isBuilt.typed⟩⟩

/-- The session asks for a stream that fails behind its event, for a step that belongs to no walk and
for a submit. The stream that it builds then writes a register, draws, records a call and waits. -/
theorem session_answersByKind_draw :
    let requests : List Request := [
      .buildStream .universal .universal
        #[Header.ofOpcode Opcode.drawAuto 0, Header.ofOpcode Opcode.nop 3],
      .step (.flat #[]) 0 (.enter 3 { va := 8, size := 1 } .chain),
      .submitStart 1 { engine := .universal, queue := .compute, ibs := [] }]
    let p := Pass.session {} requests
    let words : Array UInt32 := #[Header.ofRegisters 0x8871 1, 5,
      Header.ofOpcode Opcode.drawIndexOffset 1, 0, Header.ofOpcode Opcode.nop 1,
      CallMarker.word .draw, Header.ofOpcode Opcode.waitForIdle 0]
    (p.nodes.toList.drop 4).map (·.kind) = [.packet, .event, .ib, .submit] ∧ p.nodes.Typed ∧
      ∃ h, Pass.answer (Pass.buildStream {} .universal .universal words) p = .ok h ∧
        h.numNodes = 19 ∧ h.eventId 14 = .ok 0 ∧
        (∃ id, h.markerId 16 = .ok id) ∧ (∃ s, h.syncKind 18 = .ok s) ∧
        (∃ ce, h.regFieldOnConstantEngine 5 = .ok ce) ∧
        (∃ ce, h.regFieldOnConstantEngine 6 = .ok ce) ∧
        h.ibIndex 14 = .error (.kindMismatch 14 .event .ib) ∧
        h.regFieldOnConstantEngine 4 = .error (.kindMismatch 4 .packet .reg) ∧
        h.submitIndex 19 = .error (.nodeOutOfRange 19 19) := by
  intro requests p words
  have hleft : (p.nodes.toList.drop 4).map (·.kind) = [.packet, .event, .ib, .submit] := by
    decide +kernel
  have hrun : ∃ h, Pass.answer (Pass.buildStream {} .universal .universal words) p = .ok h ∧
      h.numNodes = 19 ∧ h.nodes.aux? 14 = some (.event 0) ∧ h.nodes.kind? 4 = some .packet ∧
      h.nodes.kind? 5 = some .reg ∧ h.nodes.kind? 6 = some .field ∧
      h.nodes.kind? 16 = some .marker ∧ h.nodes.kind? 18 = some .sync := by
    decide +kernel
  obtain ⟨h, hb, hsize, hdata, hpacket, hreg, hfield, hmarker, hsync⟩ := hrun
  obtain ⟨hsession, hbuilds⟩ := session_answersByKind {} requests
  obtain ⟨htyped, hanswers⟩ := hbuilds h (.inr ⟨.universal, .universal, words, hb⟩)
  have hevent : h.nodes.kind? 14 = some .event := htyped.kind?_event hdata
  obtain ⟨i, hi⟩ := (hanswers.eventId.ok_iff 14).mpr ⟨.event, by decide, hevent⟩
  obtain ⟨aux, haux, rfl⟩ := hanswers.eventId.carried 14 i hi
  obtain rfl : i = 0 := by
    rw [hdata] at haux
    cases haux
    rfl
  exact ⟨hleft, hsession, h, hb, hsize, hi,
    (hanswers.markerId.ok_iff 16).mpr ⟨.marker, by decide, hmarker⟩,
    (hanswers.syncKind.ok_iff 18).mpr ⟨.sync, by decide, hsync⟩,
    (hanswers.regFieldOnConstantEngine.ok_iff 5).mpr ⟨.reg, by decide, hreg⟩,
    (hanswers.regFieldOnConstantEngine.ok_iff 6).mpr ⟨.field, by decide, hfield⟩,
    (hanswers.ibIndex.error_iff 14 _).mpr (.inl ⟨.event, hevent, by decide, rfl⟩),
    (hanswers.regFieldOnConstantEngine.error_iff 4 _).mpr (.inl ⟨.packet, hpacket, by decide, rfl⟩),
    (hanswers.submitIndex.error_iff 19 _).mpr (.inr ⟨Nat.le_of_eq hsize, by rw [hsize]⟩)⟩

end Hierarchy

end CaptureForest
