import CaptureForest.Proofs.Hierarchy.Progress

/-! # The ways in which a build fails

A build fails for the causes of `Capture.Fault` only. None of the rules that it keeps for itself is
ever broken, whatever the capture. -/

namespace CaptureForest.Hierarchy

/-- A build fails because memory is missing, or because the capture nests calls too deeply, chains
too many buffers, lists too many buffers or has packets at too large addresses. So does the build
of a command stream for an engine that runs packets. -/
theorem error_isFault (o : Options) :
    (∀ (c : Capture) (e : Error), ofCapture o c = .error e → c.Fault e) ∧
      ∀ (engine queue : Engine) (words : Array UInt32) (e : Error), engine.isDecodable →
        ofStream o engine queue words = .error e →
          (Capture.ofStream engine queue words).Fault e := by
  refine ⟨fun c e h => ?_, fun engine queue words e hengine h => ?_⟩
  · exact (ofCapture_spec o c).2 e h
  · exact (ofStream_spec o hengine queue words).2 e h

/-- A buffer behind the end of the memory, a command stream that ends inside of a packet, and a buffer
that calls itself until there are too many calls in calls. -/
theorem error_isFault_uncaptured_nested :
    let c : Capture := {
      submits := [{ engine := .universal, queue := .universal, ibs := [{ va := 8, size := 1 }] }]
      memory := .flat #[] }
    let words := #[Header.ofOpcode Opcode.nop 3]
    let nested : Capture := {
      submits := [{ engine := .universal, queue := .universal, ibs := [{ va := 0, size := 4 }] }]
      memory := .flat (Words.toBytes #[Header.ofOpcode Opcode.callPfe 3, 0, 0, 4]) }
    ofCapture {} c = .error (.memoryRead 0 8 4) ∧ c.Fault (.memoryRead 0 8 4) ∧
      ofStream {} .compute .compute words = .error (.memoryRead 0 0 16) ∧
      (Capture.ofStream .compute .compute words).Fault (.memoryRead 0 0 16) ∧
      ofCapture {} nested = .error (.violation (.nestingTooDeep 0)) ∧
      nested.Fault (.violation (.nestingTooDeep 0)) := by
  intro c words nested
  have hc : ofCapture {} c = .error (.memoryRead 0 8 4) := by decide +kernel
  have hwords : ofStream {} .compute .compute words = .error (.memoryRead 0 0 16) := by
    decide +kernel
  have hnested : ofCapture {} nested = .error (.violation (.nestingTooDeep 0)) := by
    decide +kernel
  exact ⟨hc, (error_isFault {}).1 c _ hc, hwords,
    (error_isFault {}).2 .compute .compute words _ rfl hwords, hnested,
    (error_isFault {}).1 nested _ hnested⟩

end CaptureForest.Hierarchy
