import CaptureForest.Proofs.Hierarchy.Moments
import CaptureForest.Proofs.Pass.Waiting

/-! # What a command buffer takes over

A command buffer that begins takes over the events, and shares the packets, since the last step at
which a buffer was entered or left or a recorded call was executed
(`Pass.Moment.takesOver_of_begins`). -/

namespace CaptureForest.Pass

variable {o : Options} {c : Capture} {before : List Submit} {s : Submit} {t : List Step}
  {x : Step} {p q : Pass}

/-- A moment leads to the next one by a step. -/
theorem Moment.snoc (h : Moment o c before s t p)
    (hx : t ++ [x] <+: Walk.steps c.memory before.length s.ibs)
    (hq : step o c.memory before.length x p = .ok () q) : Moment o c before s (t ++ [x]) q := by
  refine ⟨h.listed, h.walked, hx, ?_⟩
  have hp : upTo o c before s t {} = .ok () p := h.run
  show upTo o c before s (t ++ [x]) {} = .ok () q
  rw [upTo_append]
  show EStateM.bind _ _ _ = _
  rw [EStateM.bind, hp]
  exact hq

/-- The walk that a build follows makes a move at each moment at which it goes on. -/
theorem Moment.next (h : Moment o c before s t p)
    (hx : t ++ [x] <+: Walk.steps c.memory before.length s.ibs) : ∃ pos pos' submit,
      p.Follows submit pos ∧ Walk.Move c.memory before.length s.ibs pos x pos' := by
  obtain ⟨after, hlisted⟩ := h.listed
  obtain ⟨rest, hrest⟩ := hx
  rw [List.append_assoc, List.singleton_append] at hrest
  obtain ⟨pos, submit, final, hduring, hpath⟩ :=
    (upTo_leads o hlisted h.walked hrest.symm).of_ok h.run
  obtain ⟨pos', move, -⟩ := hpath.head
  exact ⟨pos, pos', submit, hduring.follows, move⟩

/-- A packet is executed if its words were captured and its address fits. -/
theorem Moment.packet_succeeds {ibIndex va : Nat} {kind : PacketKind} {header : UInt32}
    {words : Vector UInt32 (kind.length header)} (h : Moment o c before s t p)
    (hx : t ++ [.packet ibIndex va kind header] <+: Walk.steps c.memory before.length s.ibs)
    (hk : kind ≠ .unknown)
    (hwords : c.memory.words before.length va (kind.length header) = .ok words)
    (hva : va < 1 <<< Aux.packetAddressBits) :
    ∃ q, Moment o c before s (t ++ [.packet ibIndex va kind header]) q := by
  obtain ⟨pos, pos', submit, hfollows, move⟩ := h.next hx
  cases move with
  | @packet r _ _ hr =>
    obtain ⟨run, runs, hibs, htop, -⟩ := hfollows.top? hr
    have htop? : p.ibs.top? = some run.top := by rw [hibs]; rfl
    have hsucceeds : Succeeds (packet o c.memory before.length r.next (.ofHeader header) header) p
        fun _ _ => True := by
      refine (packet_leads o hfollows.sound hfollows.isOpen htop? htop.kind? hk).mono
        (fun _ _ _ => trivial) ?_
      rintro e _ (herror | ⟨-, hle⟩)
      · cases hwords.symm.trans herror
      · exact Nat.not_lt.mpr hle hva
    obtain ⟨_, q, hq, -⟩ := hsucceeds.exists_ok
    exact ⟨q, h.snoc hx hq⟩

/-- In a buffer, all that was added since the last step that made the pass forget what waits is
waiting. -/
theorem Moment.waiting (h : Moment o c before s t p) : p.ibs = [] ∨ ∃ t₁ y t₂ r,
    t = t₁ ++ y :: t₂ ∧ y.forgets c.memory before.length ∧
    (∀ z ∈ t₂, z.forgets c.memory before.length = false) ∧ Moment o c before s (t₁ ++ [y]) r ∧
    p.Waiting r.nodes.size := by
  induction t using List.reverseRecOn generalizing p with
  | nil => exact .inl (List.eq_nil_of_length_eq_zero h.length_ibs)
  | append_singleton t x ih =>
    obtain ⟨r, submit, hr, hsubmit, hturns⟩ := h.last
    cases hx : x.forgets c.memory before.length with
    | true =>
      exact .inr ⟨t, x, [], p, rfl, hx, nofun, h, hturns.waiting_of_forgets hx⟩
    | false =>
      refine (ih hr).imp (fun hnil => ?_) fun ⟨t₁, y, t₂, r', ht, hy, hlast, hr', hw⟩ => ?_
      · cases hturns with
        | enter | leave => cases hx
        | skip => exact hnil
        | @packet ibIndex _ _ _ _ _ hq =>
          refine (Runs.of_call?_eq_none (i := ibIndex) hq ?_).1.trans hnil
          exact Option.isSome_eq_false_iff.mp hx |> Option.isNone_iff_eq_none.mp
      · refine ⟨t₁, y, t₂ ++ [x], r', by rw [ht]; simp, hy, fun z hz => ?_, hr', hturns.waiting hx hw⟩
        rcases List.mem_append.mp hz with hz | hz
        · exact hlast z hz
        · exact List.mem_singleton.mp hz ▸ hx

/-- A packet that begins a command buffer is executed if its address fits. Its marker takes over the
events, and shares the packets, that were added since the last step at which a buffer was entered or
left or a recorded call was executed. -/
theorem Moment.takesOver_of_begins {ibIndex va : Nat} {kind : PacketKind} {header : UInt32}
    (h : Moment o c before s t p)
    (hx : t ++ [.packet ibIndex va kind header] <+: Walk.steps c.memory before.length s.ibs)
    (hcommand : (Step.packet ibIndex va kind header).command? c.memory before.length =
      some .beginCommandBuffer) :
    (va < 1 <<< Aux.packetAddressBits →
      ∃ q, Moment o c before s (t ++ [.packet ibIndex va kind header]) q) ∧
    ∃ t₁ y t₂ r, t = t₁ ++ y :: t₂ ∧ y.forgets c.memory before.length ∧
      (∀ z ∈ t₂, z.forgets c.memory before.length = false) ∧ Moment o c before s (t₁ ++ [y]) r ∧
      ∀ q, Moment o c before s (t ++ [.packet ibIndex va kind header]) q →
        ∃ parent marker, p.TakesOver q r.nodes.size parent marker := by
  have hk : kind ≠ .unknown := by
    rintro rfl
    rw [Step.command?, Step.call?_unknown] at hcommand
    cases hcommand
  have hibs : p.ibs ≠ [] := by
    obtain ⟨pos, pos', submit, hfollows, move⟩ := h.next hx
    cases move with
    | packet hr =>
      obtain ⟨_, _, hibs, -⟩ := hfollows.top? hr
      rw [hibs]
      exact List.cons_ne_nil _ _
  refine ⟨fun hva => ?_, ?_⟩
  · cases hwords : c.memory.words before.length va (kind.length header) with
    | ok words => exact h.packet_succeeds hx hk hwords hva
    | error e => simp [Step.command?, Step.call?, hwords] at hcommand
  · obtain hnil | ⟨t₁, y, t₂, r, ht, hy, hlast, hr, hw⟩ := h.waiting
    · exact absurd hnil hibs
    · refine ⟨t₁, y, t₂, r, ht, hy, hlast, hr, fun q hq => ?_⟩
      obtain ⟨p', submit, hp', hsubmit, hturns⟩ := hq.last
      cases h.unique hp'
      obtain ⟨marker, htakes⟩ := hturns.takesOver hcommand h.sound hsubmit hw
      exact ⟨_, marker, htakes⟩

/-- What comes behind a draw call is taken over, a draw and a synchronisation. The draw before the
call is not. -/
theorem Moment.takesOver_of_begins_draw :
    let s : Submit :=
      { engine := .universal, queue := .universal, ibs := [{ va := 0, size := 8 }] }
    let c : Capture := {
      submits := [s]
      memory := .flat (Words.toBytes #[Header.ofOpcode Opcode.drawAuto 0,
        Header.ofOpcode Opcode.nop 1, CallMarker.word .draw, Header.ofOpcode Opcode.drawAuto 0,
        Header.ofOpcode Opcode.waitForIdle 0, Header.ofOpcode Opcode.nop 0,
        Header.ofOpcode Opcode.nop 1, CallMarker.word .beginCommandBuffer]) }
    let t := (Walk.steps c.memory 0 s.ibs).take 6
    let x : Step := .packet 0 24 .type7 (Header.ofOpcode Opcode.nop 1)
    ∃ p q r, Moment {} c [] s t p ∧ Moment {} c [] s (t ++ [x]) q ∧
      x.command? c.memory 0 = some .beginCommandBuffer ∧ (∃ t₁ y t₂, t = t₁ ++ y :: t₂ ∧
        y.forgets c.memory 0 ∧ (∀ z ∈ t₂, z.forgets c.memory 0 = false) ∧
        Moment {} c [] s (t₁ ++ [y]) r) ∧
      ∃ parent, p.TakesOver q r.nodes.size parent 18 ∧ p.owned .rgp 11 = [13, 15] ∧
        q.owned .rgp 11 = [] ∧ q.owned .rgp 18 = [13, 15] := by
  intro s c t x
  have hsteps : Walk.steps c.memory 0 s.ibs =
      t ++ [x] ++ (Walk.steps c.memory 0 s.ibs).drop 7 := by decide +kernel
  have hbefore : Succeeds (upTo {} c [] s t) {} fun _ p => p.owned .rgp 11 = [13, 15] := by
    decide +kernel
  have hbehind : Succeeds (upTo {} c [] s (t ++ [x])) {} fun _ q => q.nodes.size = 19 ∧
      q.owned .rgp 11 = [] ∧ q.owned .rgp 18 = [13, 15] := by
    decide +kernel
  have hx : x.command? c.memory 0 = some .beginCommandBuffer := by decide +kernel
  obtain ⟨_, p, hp, howned⟩ := hbefore.exists_ok
  obtain ⟨_, q, hq, hsize, howned'⟩ := hbehind.exists_ok
  have hpt : Moment {} c [] s t p :=
    ⟨⟨[], rfl⟩, rfl, ⟨_, (List.append_assoc ..).symm.trans hsteps.symm⟩, hp⟩
  have hqt : Moment {} c [] s (t ++ [x]) q := ⟨⟨[], rfl⟩, rfl, ⟨_, hsteps.symm⟩, hq⟩
  obtain ⟨-, t₁, y, t₂, r, ht, hy, hlast, hr, htakes⟩ := Moment.takesOver_of_begins hpt hqt.steps hx
  obtain ⟨parent, marker, htakes⟩ := htakes q hqt
  obtain rfl : marker = 18 := Nat.succ.inj (htakes.last.symm.trans hsize)
  exact ⟨p, q, r, hpt, hqt, hx, ⟨t₁, y, t₂, ht, hy, hlast, hr⟩, parent, htakes, howned, howned'⟩

end CaptureForest.Pass
