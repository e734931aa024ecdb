import CaptureForest.Proofs.Pass.Scoped
import Mathlib.Data.List.TakeWhile

/-! # Levels

While a call executes a command buffer, it stands on the marker stacks a second time, as a level.
There is one scope only. As long as it is the scope of that call, the level ends with it
(`Levels.Bounded`). If another call that executes command buffers takes the scope while the level is
open, nothing closes the level any more (`Levels.Stale`). -/

namespace CaptureForest

namespace Pass

variable {n m : Nat} {ms : List Nat}

theorem popThrough_cons_self : popThrough n (n :: ms) = ms := by
  simp [popThrough]

theorem popThrough_of_not_mem (h : n ∉ ms) : popThrough n ms = ms := by
  have hdrop : ms.dropWhile (· != n) = [] :=
    List.dropWhile_eq_nil_iff.mpr fun m hm => by
      simpa using fun heq : m = n => h (heq ▸ hm)
  rw [popThrough, hdrop]

theorem popThrough_cons_of_mem (hne : m ≠ n) (h : n ∈ ms) :
    popThrough n (m :: ms) = popThrough n ms := by
  unfold popThrough
  rw [List.dropWhile_cons_of_pos (by simpa using hne)]
  cases hdrop : ms.dropWhile (· != n) with
  | nil => simpa using List.dropWhile_eq_nil_iff.mp hdrop n h
  | cons => rfl

/-- What is left of a stack is left of one with more on top. -/
theorem mem_popThrough_cons {a : Nat} (h : a ∈ popThrough n ms) : a ∈ popThrough n (m :: ms) := by
  by_cases hne : m = n
  · rw [hne, popThrough_cons_self]
    exact popThrough_subset h
  · by_cases hmem : n ∈ ms
    · rwa [popThrough_cons_of_mem hne hmem]
    · rw [popThrough_of_not_mem (by simpa [hmem] using Ne.symm hne)]
      exact List.mem_cons_of_mem _ (popThrough_subset h)

/-- What is left of a stack is left of one with less on top. -/
theorem mem_popThrough_of_cons {a : Nat} (hm : m ≠ n) (ha : a ≠ m)
    (h : a ∈ popThrough n (m :: ms)) : a ∈ popThrough n ms := by
  by_cases hmem : n ∈ ms
  · rwa [popThrough_cons_of_mem hm hmem] at h
  · rw [popThrough_of_not_mem (by simpa [hmem] using Ne.symm hm)] at h
    rw [popThrough_of_not_mem hmem]
    exact (List.mem_cons.mp h).resolve_left ha

end Pass

namespace Levels

variable {nodes : Nodes} {call depth : Nat} {l l' : Levels}

/-- The call, recorded at a depth, has a level in its own scope only, and one at most. -/
structure Bounded (call depth : Nat) (l : Levels) : Prop where
  scope : ∀ s, l.scope = some s → s.call = call → s.depth = depth
  level : call ∈ l.markers → ∃ s, l.scope = some s ∧ s.call = call ∧ s.levelOpen
  once : ∀ s, l.scope = some s → s.levelOpen → call ∉ Pass.popThrough s.call l.markers

/-- The call has a level that no scope will close. -/
structure Stale (call : Nat) (l : Levels) : Prop where
  mem : call ∈ l.markers
  scope : ∀ s, l.scope = some s → s.call ≠ call
  kept : ∀ s, l.scope = some s → s.levelOpen → call ∈ Pass.popThrough s.call l.markers

/-- A call without a level in another scope has none. -/
theorem Bounded.not_mem (h : l.Bounded call depth)
    (hclosed : ∀ s, l.scope = some s → s.call = call → s.levelOpen = false) : call ∉ l.markers := by
  intro hmem
  obtain ⟨s, hs, hcall, hopen⟩ := h.level hmem
  rw [hclosed s hs hcall] at hopen
  cases hopen

namespace Shift

theorem bounded {d : Nat} (h : Shift nodes d l l') (hl : l.Bounded call depth)
    (hcall : nodes.Executes call) (hscope : ∀ s, l.scope = some s → nodes.Executes s.call) :
    l'.Bounded call depth := by
  cases h with
  | stays => exact hl
  | @opensLevel ms s hclosed _ =>
    have hnot : call ∉ ms := hl.not_mem fun s' hs' _ => Option.some.inj hs' ▸ hclosed
    refine ⟨fun s' hs' => ?_, fun hmem => ?_, fun s' hs' _ => ?_⟩
    · cases hs'
      exact hl.scope s rfl
    · rcases List.mem_cons.mp hmem with heq | hmem
      · exact ⟨_, rfl, heq.symm, rfl⟩
      · exact absurd hmem hnot
    · cases hs'
      rw [Pass.popThrough_cons_self]
      exact hnot
  | @closesLevel ms s hopen =>
    refine ⟨fun s' hs' => ?_, fun hmem => absurd hmem (hl.once s rfl hopen), fun s' hs' h => ?_⟩
    · cases hs'
      exact hl.scope s rfl
    · cases hs'
      cases h
  | @closesScope ms s hopen =>
    exact ⟨nofun, fun hmem => absurd hmem (hl.once s rfl hopen), nofun⟩
  | @endsScope ms s hclosed =>
    have hnot : call ∉ ms := hl.not_mem fun s' hs' _ => Option.some.inj hs' ▸ hclosed
    exact ⟨nofun, fun hmem => absurd hmem hnot, nofun⟩
  | @pushesLabel ms scope =>
    have hne := Nat.ne_of_lt hcall.lt
    refine ⟨hl.scope, fun hmem => hl.level ((List.mem_cons.mp hmem).resolve_left hne),
      fun s hs hopen hmem => hl.once s hs hopen ?_⟩
    exact Pass.mem_popThrough_of_cons (Nat.ne_of_gt (hscope s hs).lt) hne hmem
  | popsLabel =>
    exact ⟨hl.scope, fun hmem => hl.level (List.mem_cons_of_mem _ hmem),
      fun s hs hopen hmem => hl.once s hs hopen (Pass.mem_popThrough_cons hmem)⟩

theorem stale {d : Nat} (h : Shift nodes d l l') (hl : l.Stale call)
    (hcall : nodes.Executes call) (hscope : ∀ s, l.scope = some s → nodes.Executes s.call) :
    l'.Stale call := by
  cases h with
  | stays => exact hl
  | @opensLevel ms s hclosed =>
    refine ⟨List.mem_cons_of_mem _ hl.mem, fun s' hs' => ?_, fun s' hs' _ => ?_⟩
    · cases hs'
      exact hl.scope s rfl
    · cases hs'
      rw [Pass.popThrough_cons_self]
      exact hl.mem
  | @closesLevel ms s hopen =>
    refine ⟨hl.kept s rfl hopen, fun s' hs' => ?_, fun s' hs' h => ?_⟩
    · cases hs'
      exact hl.scope s rfl
    · cases hs'
      cases h
  | @closesScope ms s hopen => exact ⟨hl.kept s rfl hopen, nofun, nofun⟩
  | endsScope => exact ⟨hl.mem, nofun, nofun⟩
  | pushesLabel =>
    exact ⟨List.mem_cons_of_mem _ hl.mem, hl.scope,
      fun s hs hopen => Pass.mem_popThrough_cons (hl.kept s hs hopen)⟩
  | @popsLabel m ms scope hk =>
    have hlabel {n : Nat} (hn : nodes.Executes n) : n ≠ m := by
      rintro rfl
      rw [Nodes.markerKind?, hn] at hk
      cases hk
    have hne := hlabel hcall
    exact ⟨(List.mem_cons.mp hl.mem).resolve_left hne, hl.scope, fun s hs hopen =>
      Pass.mem_popThrough_of_cons (hlabel (hscope s hs)).symm hne (hl.kept s hs hopen)⟩

end Shift

/-- A scope begins where the call has no level. -/
theorem bounded_of_not_mem {ms : List Nat} {n d : Nat} (h : call ∉ ms)
    (hd : n = call → d = depth) :
    Bounded call depth ⟨ms, some { call := n, depth := d }⟩ where
  scope s hs := Option.some.inj hs ▸ hd
  level hmem := absurd hmem h
  once s hs hopen := by
    cases hs
    cases hopen

/-- The scope of another call begins where the call has a level. -/
theorem stale_of_mem {ms : List Nat} {n d : Nat} (h : call ∈ ms) (hne : n ≠ call) :
    Stale call ⟨ms, some { call := n, depth := d }⟩ where
  mem := h
  scope s hs := Option.some.inj hs ▸ hne
  kept s hs hopen := by
    cases hs
    cases hopen

end Levels

/-! ## Steps -/

namespace Pass

variable {p q : Pass} {o : Options} {m : Reader} {index submit : Nat} {x : Step}

theorem levels_popped : p.popped.levels = p.levels := by
  obtain ⟨_, _, heq⟩ := p.modifyIbs_eq List.tail
  rw [popped, heq]
  rfl

/-- A packet that marks no call leaves the stacks as they are. -/
theorem Runs.of_call?_eq_none {i va : Nat} {kind : PacketKind} {header : UInt32}
    (h : Runs o m index submit va kind header p q)
    (hx : (Step.packet i va kind header).call? m index = none) :
    q.ibs = p.ibs ∧ q.levels = p.levels := by
  cases h with
  | works _ _ _ hr hs hq =>
    have hworks := by
      cases hs with
      | sync _ _ _ hctx | event _ _ _ hctx =>
        exact And.intro (congrArg Pass.ibs hctx :) (congrArg levels hctx :)
      | nothing => exact ⟨rfl, rfl⟩
    exact ⟨(congrArg Pass.ibs hq.context :).trans (hworks.1.trans (congrArg Pass.ibs hr.context :)),
      (congrArg levels hq.context :).trans (hworks.2.trans (congrArg levels hr.context :))⟩
  | obeys _ hw hc => cases ((Step.call?_packet hw).trans hc).symm.trans hx

/-- A step shifts the levels, unless it is a call that executes command buffers. -/
theorem Turns.shift (h : Turns o m index submit p x q) (hp : p.Scoped)
    (hx : ¬x.Executes m index) :
    ∃ (new : List Node) (depth : Nat), Levels.Shift (p.nodes ++ new) depth p.levels q.levels := by
  have hstays (hq : q.levels = p.levels) : ∃ (new : List Node) (depth : Nat),
      Levels.Shift (p.nodes ++ new) depth p.levels q.levels := ⟨[], 0, hq ▸ .stays⟩
  cases h with
  | enter hq =>
    obtain ⟨_, _, hctx⟩ := hq.context_eq
    exact hstays (congrArg levels hctx :)
  | leave =>
    refine ⟨[], 0, ?_⟩
    have hnodes : p.popped.nodes = p.nodes := modifyIbs_nodes
    rw [Array.appendList_nil, ← levels_popped, ← hnodes]
    exact shift_scopeLeft rfl
  | skip => exact hstays rfl
  | packet _ hq =>
    cases hq with
    | works hb hw hc hr hs hq =>
      exact hstays (Runs.of_call?_eq_none (i := 0) (.works hb hw hc hr hs hq)
        ((Step.call?_packet hw).trans hc)).2
    | @obeys _ words call r s _ hw hc hr hs =>
      have hcall : call.command ≠ .executeCommands := fun heq =>
        hx (by rw [Step.Executes, Step.call?_packet hw, hc, ← heq]; rfl)
      have hscoped : r.marked.Scoped := hp.grow hr.adds.nodes (congrArg Pass.ibs hr.context :)
        (congrArg Pass.scope hr.context :)
      have hshift := hs.shift hscoped hcall
      have hlevels : r.marked.levels = p.levels := (congrArg levels hr.context :)
      have hnodes : r.marked.nodes = _ := hr.adds.nodes
      rw [hlevels, hnodes] at hshift
      exact ⟨_, _, hshift⟩

/-- A call that executes command buffers becomes the open call, and its scope begins. -/
theorem Turns.begins (h : Turns o m index submit p x q) (hx : x.Executes m index) :
    ∃ n, p.nodes.size ≤ n ∧ q.nodes.Executes n ∧ q.openCall = some n ∧
      q.levels = ⟨p.levels.markers, some { call := n, depth := q.ibDepth }⟩ := by
  cases h with
  | enter | leave => cases hx
  | skip =>
    rw [Step.Executes, Step.call?_unknown] at hx
    cases hx
  | packet _ hq =>
    cases hq with
    | works _ hw hc =>
      rw [Step.Executes, Step.call?_packet hw, hc] at hx
      cases hx
    | @obeys _ words call r s _ hw hc hr hs =>
      rw [Step.Executes, Step.call?_packet hw, hc] at hx
      obtain ⟨hexec, hopen, hbegun⟩ := hs.begins (Option.some.inj hx)
      have hlevels : r.marked.levels = p.levels := (congrArg levels hr.context :)
      have hdepth : s.ibDepth = r.marked.ibDepth := (congrArg ibDepth hs.still_eq :)
      rw [hlevels, ← hdepth] at hbegun
      exact ⟨_, hr.adds.le_size, hexec, hopen, hbegun⟩

/-- No step takes nodes away. -/
theorem Turns.nodes (h : Turns o m index submit p x q) (hp : p.Sound)
    (hs : p.submit = some submit) : ∃ new : List Node, q.nodes = p.nodes ++ new := by
  cases h with
  | enter hq => exact ⟨_, hq.adds.nodes⟩
  | leave =>
    obtain ⟨_, _, _, _, _, hleft⟩ := p.left_eq
    exact ⟨[], by rw [hleft]; exact Array.appendList_nil.symm⟩
  | skip => exact ⟨[], Array.appendList_nil.symm⟩
  | packet _ hq =>
    obtain ⟨-, _, _, -, hfiles⟩ := hq.sound hp hs
    obtain ⟨_, hnodes, -⟩ := hfiles.nodes
    exact ⟨_, hnodes⟩

end Pass

end CaptureForest
