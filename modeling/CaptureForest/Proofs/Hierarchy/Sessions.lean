import CaptureForest.Proofs.Hierarchy.Progress

/-! # Sessions

A pass may be kept from one build to the next, and its steps may be asked for one by one. Whatever
was asked before, and whatever of it failed, a build comes out as it does from a new pass. -/

namespace CaptureForest

/-- Something that is asked of a pass. -/
inductive Request where
  | build (c : Capture)
  | buildStream (engine queue : Engine) (words : Array UInt32)
  | submitStart (index : Nat) (s : Submit)
  | submitEnd (index : Nat)
  | step (memory : Reader) (index : Nat) (step : Step)

namespace Pass

def serve (o : Options) : Request → PassM Unit
  | .build c => discard (build o c)
  | .buildStream engine queue words => discard (buildStream o engine queue words)
  | .submitStart index s => submitStart index s
  | .submitEnd index => submitEnd index
  | .step memory index step => Pass.step o memory index step

variable {α : Type}

/-- What an action answers. -/
def answer (x : PassM α) (p : Pass) : Except Error α :=
  match x.run p with
  | .ok a _ => .ok a
  | .error e _ => .error e

/-- The pass that an action leaves, also where it fails. -/
def leftBy (x : PassM α) (p : Pass) : Pass :=
  match x.run p with
  | .ok _ q => q
  | .error _ q => q

/-- The pass of a session, which goes on after a request that failed. -/
def session (o : Options) (requests : List Request) : Pass :=
  requests.foldl (fun p request => leftBy (serve o request) p) {}

/-! ## Builds start afresh -/

theorem start_afresh (engines : List Engine) (p q : Pass) : start engines p = start engines q :=
  rfl

attribute [local irreducible] start

/-- What follows an action cannot tell apart two passes that the action does not. -/
theorem bind_afresh {β : Type} {x : PassM α} {f : α → PassM β} {p q : Pass} (h : x p = x q) :
    (x >>= f) p = (x >>= f) q := by
  simp only [bind, EStateM.bind, h]

theorem build_afresh (o : Options) (c : Capture) (p q : Pass) : build o c p = build o c q :=
  bind_afresh (start_afresh Engine.all p q)

theorem buildStream_unsupported {engine : Engine} (o : Options) (h : ¬engine.isDecodable)
    (queue : Engine) (words : Array UInt32) (p : Pass) :
    buildStream o engine queue words p = .error (.unsupportedSubmit engine) p := by
  unfold buildStream
  rw [if_neg h]
  rfl

theorem buildStream_afresh {engine : Engine} (o : Options) (h : engine.isDecodable)
    (queue : Engine) (words : Array UInt32) (p q : Pass) :
    buildStream o engine queue words p = buildStream o engine queue words q := by
  unfold buildStream
  rw [if_pos h]
  exact bind_afresh (start_afresh [engine] p q)

attribute [local irreducible] build buildStream

theorem answer_build (o : Options) (c : Capture) (p : Pass) :
    answer (build o c) p = Hierarchy.ofCapture o c := by
  unfold answer Hierarchy.ofCapture EStateM.run
  rw [build_afresh o c p {}]
  cases build o c {} <;> rfl

theorem answer_buildStream (o : Options) (engine queue : Engine) (words : Array UInt32) (p : Pass) :
    answer (buildStream o engine queue words) p = Hierarchy.ofStream o engine queue words := by
  unfold answer Hierarchy.ofStream EStateM.run
  by_cases hengine : engine.isDecodable
  · rw [buildStream_afresh o hengine queue words p {}]
    cases buildStream o engine queue words {} <;> rfl
  · rw [buildStream_unsupported o hengine queue words p,
      buildStream_unsupported o hengine queue words {}]

/-- A stream is rejected as unsupported before anything happens to the pass. -/
theorem eq_of_unsupported {o : Options} {engine queue rejected : Engine} {words : Array UInt32}
    {p q : Pass}
    (h : buildStream o engine queue words p = .error (.unsupportedSubmit rejected) q) : q = p := by
  by_cases hengine : engine.isDecodable
  · cases (buildStream_leads o hengine queue words).of_error h
  · rw [buildStream_unsupported o hengine queue words p] at h
    cases h
    rfl

/-- In a session a build answers as in a new one, and a stream that is rejected as unsupported
leaves the session as it was. -/
theorem session_afresh (o : Options) (requests : List Request) :
    (∀ c, answer (build o c) (session o requests) = Hierarchy.ofCapture o c) ∧
    (∀ engine queue words,
      answer (buildStream o engine queue words) (session o requests) =
        Hierarchy.ofStream o engine queue words) ∧
    ∀ engine queue words rejected q,
      buildStream o engine queue words (session o requests) =
        .error (.unsupportedSubmit rejected) q → q = session o requests :=
  ⟨fun c => answer_build o c _,
    fun engine queue words => answer_buildStream o engine queue words _,
    fun _ _ _ _ _ => eq_of_unsupported⟩

/-- The first stream fails behind a call that stays open, and the submit that follows begins among
its nodes. None of this is seen by the next stream, and one for the timer is rejected. -/
theorem session_afresh_failed :
    let stream : Array UInt32 := #[Header.ofOpcode Opcode.nop 1, CallMarker.word .draw,
      Header.ofOpcode Opcode.nop 3]
    let p := session {} [.buildStream .universal .universal stream,
      .submitStart 4 { engine := .universal, queue := .compute, ibs := [] }]
    p.openCall = some 5 ∧ p.submit = some 6 ∧ p.packets = #[4] ∧
      answer (buildStream {} .universal .universal stream) p = .error (.memoryRead 0 8 16) ∧
      ∃ q, buildStream {} .timer .timer stream p = .error (.unsupportedSubmit .timer) q ∧ q = p := by
  intro stream p
  have hleft : p.openCall = some 5 ∧ p.submit = some 6 ∧ p.packets = #[4] := by decide +kernel
  have hnew : Hierarchy.ofStream {} .universal .universal stream = .error (.memoryRead 0 8 16) := by
    decide +kernel
  obtain ⟨-, hstream, hrejected⟩ := session_afresh {} [.buildStream .universal .universal stream,
    .submitStart 4 { engine := .universal, queue := .compute, ibs := [] }]
  obtain ⟨hopen, hsubmit, hpackets⟩ := hleft
  have hdecodable : ¬Engine.isDecodable .timer := by decide
  have htimer := buildStream_unsupported {} hdecodable .timer stream p
  exact ⟨hopen, hsubmit, hpackets, (hstream .universal .universal stream).trans hnew,
    p, htimer, hrejected .timer .timer stream .timer p htimer⟩

end Pass

end CaptureForest
