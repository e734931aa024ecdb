import CaptureForest.Proofs.Pass.Levels
import CaptureForest.Proofs.View.Branches

/-! # The call of a scope and open markers

The call of a scope is on the marker stack while its level is open. Otherwise all open markers are
above it or behind it, so it can become a level on top of them (`Levels.Tied`). When markers are
closed this stays so, as each of them is inside those below it on the stack. -/

namespace CaptureForest

namespace Pass

variable {n : Nat} {ms : List Nat}

/-- A marker on a stack splits it. -/
theorem append_popThrough (h : n ∈ ms) : ∃ front, ms = front ++ n :: popThrough n ms := by
  induction ms with
  | nil => cases h
  | cons m ms ih =>
    by_cases hne : m = n
    · subst hne
      exact ⟨[], by rw [popThrough_cons_self, List.nil_append]⟩
    · have hmem := (List.mem_cons.mp h).resolve_left (Ne.symm hne)
      obtain ⟨front, hfront⟩ := ih hmem
      refine ⟨m :: front, ?_⟩
      rw [popThrough_cons_of_mem hne hmem, List.cons_append, ← hfront]

end Pass

namespace Levels

variable {nodes : Nodes} {own own' : Nat → List Nat} {Z : Nat → Prop} {moved base ms : List Nat}
  {depth size w : Nat} {s : Scope} {l l' : Levels}

/-- The call of the scope is on the stack if its level is open, and else inside all that is open: the
markers on the stack and the nodes `base` below them. -/
structure Tied (own : Nat → List Nat) (Z : Nat → Prop) (base : List Nat) (l : Levels) : Prop where
  opened : ∀ s, l.scope = some s → s.levelOpen → s.call ∈ l.markers
  closed : ∀ s, l.scope = some s → s.levelOpen = false → ∀ m ∈ l.markers ++ base,
    Inner own Z s.call m

namespace Tied

theorem none (h : l.scope = none) : l.Tied own Z base where
  opened _ hs := by cases h.symm.trans hs
  closed _ hs := by cases h.symm.trans hs

/-- Old markers stay tied where the tree grows. -/
theorem regrown (h : l.Tied own Z base) (hg : Regrown size moved own own')
    (hopens : ∀ m ∈ l.markers ++ base, m < size ∧ m ∉ moved)
    (hscope : ∀ s, l.scope = some s → s.call < size ∧ s.call ∉ moved) : l.Tied own' Z base where
  opened := h.opened
  closed s hs hclosed m hm := by
    obtain ⟨hlt, hs'⟩ := hscope s hs
    obtain ⟨hlt', hm'⟩ := hopens m hm
    exact hg.inner (h.closed s hs hclosed m hm) hlt hs' hlt' hm'

/-- A new marker below an open one can be opened. -/
theorem pushed (h : l.Tied own Z base) (hg : Grafted size w [] own own')
    (hw : w ∈ l.markers ++ base) (hopens : ∀ m ∈ l.markers ++ base, m < size)
    (hscope : ∀ s, l.scope = some s → s.call < size)
    (hne : ∀ s, l.scope = some s → s.levelOpen = false → s.call ≠ w) :
    Tied own' Z base ⟨size :: l.markers, l.scope⟩ where
  opened s hs hopen := List.mem_cons_of_mem _ (h.opened s hs hopen)
  closed s hs hclosed m hm := by
    rcases List.mem_cons.mp hm with rfl | hm
    · exact hg.new_inner (h.closed s hs hclosed w hw) (hne s hs hclosed) (hscope s hs)
        List.not_mem_nil
    · exact hg.inner (h.closed s hs hclosed m hm) (hscope s hs) List.not_mem_nil (hopens m hm)
        List.not_mem_nil

end Tied

/-- A shift that pushes no label keeps the call of the scope tied. -/
theorem Shift.tied (h : Shift nodes depth l l') (hl : l.Tied own Z base)
    (hnest : (l.markers ++ base).Pairwise (Inner own Z))
    (hexec : ∀ s, l.scope = some s → nodes.Executes s.call)
    (hlt : ∀ m ∈ l'.markers, m < nodes.size) : l'.Tied own Z base := by
  cases h with
  | stays => exact hl
  | opensLevel =>
    refine ⟨fun s' hs _ => ?_, fun s' hs hclosed => ?_⟩
    · cases hs
      exact List.mem_cons_self
    · cases hs
      cases hclosed
  | @closesLevel ms s hopen =>
    refine ⟨fun s' hs hopen' => ?_, fun s' hs _ m hm => ?_⟩
    · cases hs
      cases hopen'
    · cases hs
      -- What is left of the stack was below the call.
      have hmem : s.call ∈ ms := hl.opened s rfl hopen
      obtain ⟨front, hfront⟩ := Pass.append_popThrough hmem
      replace hnest : (ms ++ base).Pairwise (Inner own Z) := hnest
      rw [hfront, List.append_assoc, List.cons_append] at hnest
      obtain ⟨-, hnest, -⟩ := List.pairwise_append.mp hnest
      exact (List.pairwise_cons.mp hnest).1 m hm
  | closesScope | endsScope => exact .none rfl
  | pushesLabel => exact absurd (hlt _ List.mem_cons_self) (Nat.lt_irrefl _)
  | @popsLabel m ms scope hk =>
    refine ⟨fun s hs hopen => ?_, fun s hs hclosed m hm => ?_⟩
    · refine (List.mem_cons.mp (hl.opened s hs hopen)).resolve_left ?_
      rintro rfl
      rw [Nodes.markerKind?, hexec s hs] at hk
      cases hk
    · exact hl.closed s hs hclosed m (List.mem_cons_of_mem _ hm)

end Levels

end CaptureForest
