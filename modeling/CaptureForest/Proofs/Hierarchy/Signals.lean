import CaptureForest.Proofs.Hierarchy.Moments
import CaptureForest.Proofs.Hierarchy.Runs

/-! # Signals

A build hears of a capture by signals: the begin and the end of each submit, and the steps of its
walk. `Pass.After` is the pass when some of them have come. What holds of a pass that has just
started, and is kept by the signals, holds after all of them (`Pass.After.induct`). -/

namespace CaptureForest

/-- What a build is told of a capture. -/
inductive Signal where
  | begins (index : Nat) (s : Submit)
  | step (index : Nat) (x : Step)
  | ends (index : Nat) (s : Submit)

/-- The step that a signal reports, with the place of its submit. -/
def Signal.step? : Signal → Option (Nat × Step)
  | .step index x => some (index, x)
  | .begins .. | .ends .. => none

/-- A beginning of a list that is put together from parts ends in one of the parts. -/
theorem prefix_flatMap {α β : Type} {f : α → List β} {l : List α} {t : List β}
    (h : t <+: l.flatMap f) :
    t = l.flatMap f ∨ ∃ before a after u, l = before ++ a :: after ∧ u <+: f a ∧
      t = before.flatMap f ++ u := by
  induction l generalizing t with
  | nil => exact .inl (List.prefix_nil.mp h)
  | cons a l ih =>
    rw [List.flatMap_cons] at h
    obtain ⟨rest, hrest⟩ := h
    rcases List.append_eq_append_iff.mp hrest with ⟨u, hu, -⟩ | ⟨u, rfl, hu⟩
    · exact .inr ⟨[], a, l, t, rfl, ⟨u, hu.symm⟩, rfl⟩
    · rcases ih ⟨rest, hu.symm⟩ with rfl | ⟨before, b, after, v, rfl, hv, rfl⟩
      · exact .inl (List.flatMap_cons ..).symm
      · exact .inr ⟨a :: before, b, after, v, rfl, hv, by simp⟩

namespace Capture

/-- How the walk of a submit ends, if it is walked. -/
def outcomeOf (c : Capture) (s : Submit) (index : Nat) : Except Error Unit :=
  if s.isWalked then Walk.outcome c.memory index s.ibs else .ok ()

/-- The signals of a submit. -/
def signalsOf (c : Capture) (s : Submit) (index : Nat) : List Signal :=
  .begins index s :: (c.stepsOf s index).map (.step index) ++ [.ends index s]

/-- The signals of submits. -/
def signalsFor (c : Capture) (list : List (Submit × Nat)) : List Signal :=
  list.flatMap fun (s, index) => c.signalsOf s index

/-- All signals, in order. -/
def signals (c : Capture) : List Signal := c.signalsFor c.submits.zipIdx

/-- All steps of all walks, in order, each with the place of its submit. -/
def walked (c : Capture) : List (Nat × Step) :=
  c.submits.zipIdx.flatMap fun (s, index) => (c.stepsOf s index).map (index, ·)

theorem signals_steps (c : Capture) : c.signals.filterMap Signal.step? = c.walked := by
  have hof (s : Submit) (index : Nat) : (c.signalsOf s index).filterMap Signal.step? =
      (c.stepsOf s index).map (index, ·) := by
    have hstep : Signal.step? ∘ Signal.step index = some ∘ (index, ·) := rfl
    rw [signalsOf, List.cons_append, List.filterMap_cons_none rfl, List.filterMap_append,
      List.filterMap_map, hstep, List.filterMap_eq_map]
    exact List.append_nil _
  rw [signals, signalsFor, List.filterMap_flatMap, walked]
  exact List.flatMap_congr fun _ _ => hof ..

end Capture

namespace Pass

variable {o : Options} {c : Capture} {t u : List Signal} {x : Signal} {p q : Pass}

/-- What a build does when it is told of a signal. A walk that has failed ends the build. -/
def receive (o : Options) (c : Capture) : Signal → PassM Unit
  | .begins index s => submitStart index s
  | .step index x => step o c.memory index x
  | .ends index s => do
    MonadExcept.ofExcept (c.outcomeOf s index)
    submitEnd index

theorem runSubmit_eq (o : Options) (c : Capture) (s : Submit) (index : Nat) :
    runSubmit o c.memory index s = (c.signalsOf s index).forM (receive o c) := by
  have hsteps : ((c.stepsOf s index).map (Signal.step index)).forM (receive o c) =
      (c.stepsOf s index).forM (step o c.memory index) := by
    simp only [List.forM_eq_forM, List.forM_map]
    rfl
  have hend : (receive o c (.ends index s) >>= fun _ => pure ()) = receive o c (.ends index s) :=
    bind_pure _
  simp only [List.forM_eq_forM] at hsteps
  simp only [Capture.signalsOf, List.forM_eq_forM, List.forM_append, List.forM_cons, List.forM_nil,
    List.cons_append, hsteps, hend]
  simp only [runSubmit, walk, receive, Capture.stepsOf, Capture.outcomeOf]
  by_cases hs : s.isWalked
  · simp only [hs, if_true, Walk.run_eq_replay, Walk.replay, List.forM_eq_forM, bind_assoc]
  · simp only [hs, if_false, Bool.false_eq_true, List.forM_nil, pure_bind]
    rfl

theorem forM_runSubmit (o : Options) (c : Capture) (list : List (Submit × Nat)) :
    (list.forM fun (s, index) => runSubmit o c.memory index s) =
      (c.signalsFor list).forM (receive o c) := by
  induction list with
  | nil => rfl
  | cons a list ih =>
    obtain ⟨s, index⟩ := a
    have hcons : c.signalsFor ((s, index) :: list) = c.signalsOf s index ++ c.signalsFor list :=
      List.flatMap_cons ..
    rw [List.forM_eq_forM] at ih
    rw [hcons, List.forM_eq_forM, List.forM_eq_forM, List.forM_cons, ih, List.forM_append]
    exact congrArg (· >>= _) (runSubmit_eq o c s index)

/-- A build that has begun and has been told of the signals `t`. -/
def heard (o : Options) (c : Capture) (t : List Signal) : PassM Unit := do
  prelude c
  t.forM (receive o c)

theorem heard_append (o : Options) (c : Capture) (t u : List Signal) :
    heard o c (t ++ u) = heard o c t >>= fun _ => u.forM (receive o c) := by
  simp only [heard, List.forM_eq_forM, List.forM_append, bind_assoc]

/-- A build is told of all signals. -/
theorem build_eq_heard (o : Options) (c : Capture) :
    build o c = heard o c c.signals >>= fun _ => finish := by
  rw [build_eq, forM_runSubmit, heard, bind_assoc]
  rfl

theorem upTo_eq_heard {before : List Submit} {s : Submit} {steps : List Step} :
    upTo o c before s steps = heard o c (c.signalsFor before.zipIdx ++
      .begins before.length s :: steps.map (.step before.length)) := by
  have hsteps : (steps.map (Signal.step before.length)).forM (receive o c) =
      steps.forM (step o c.memory before.length) := by
    simp only [List.forM_eq_forM, List.forM_map]
    rfl
  simp only [List.forM_eq_forM] at hsteps
  rw [upTo, forM_runSubmit]
  simp only [heard, List.forM_eq_forM, List.forM_append, List.forM_cons, hsteps]
  rfl

/-- The pass `p` is that of the build of `c` when the signals `t` have come. -/
structure After (o : Options) (c : Capture) (t : List Signal) (p : Pass) : Prop where
  listed : t <+: c.signals
  run : (heard o c t).run {} = .ok () p

-- An action without variables would be run when a statement about it is unified with another.
attribute [local irreducible] start

theorem prelude_started (c : Capture) : Succeeds (prelude c) p fun _ q =>
    q.Started Engine.all ∧ q.presents = c.presents ∧ q.metadataVersion = c.metadataVersion := by
  unfold prelude
  refine (start_succeeds Engine.all).bind ?_
  rintro _ q ⟨hq, -⟩
  exact leads_modify.mpr ⟨hq.presents c.presents c.metadataVersion, rfl, rfl⟩

/-! ## Where a build is -/

/-- A build is between two submits or in one of them. -/
inductive Place (o : Options) (c : Capture) : List Signal → Pass → Prop
  | between {done after : List (Submit × Nat)} {p : Pass} :
    c.submits.zipIdx = done ++ after → p.Between c done → Place o c (c.signalsFor done) p
  | during {before after : List Submit} {s : Submit} {steps : List Step} {pos : Walk.Position}
      {submit : Nat} {p : Pass} :
    c.submits = before ++ s :: after → steps <+: c.stepsOf s before.length →
    p.During c before.zipIdx s before.length steps pos submit →
    Place o c (c.signalsFor before.zipIdx ++
      .begins before.length s :: steps.map (.step before.length)) p

theorem heard_between {done after : List (Submit × Nat)} (o : Options)
    (hc : c.submits.zipIdx = done ++ after) :
    Leads (heard o c (c.signalsFor done)) p (fun _ q => q.Between c done) fun e _ => c.Fault e := by
  unfold heard
  rw [← forM_runSubmit]
  refine (prelude_succeeds c).bind ?_
  intro _ q hq
  exact hq.submits_leads o hc.symm

theorem upTo_during {before after : List Submit} {s : Submit} {steps : List Step} (o : Options)
    (hc : c.submits = before ++ s :: after) (hsteps : steps <+: c.stepsOf s before.length) :
    Leads (upTo o c before s steps) p
      (fun _ q => ∃ pos submit, q.During c before.zipIdx s before.length steps pos submit)
      fun e _ => c.Fault e := by
  by_cases hs : s.isWalked
  · rw [Capture.stepsOf, if_pos hs] at hsteps
    obtain ⟨rest, hrest⟩ := hsteps
    refine (upTo_leads o hc hs hrest.symm).imp ?_
    rintro _ q ⟨pos, submit, -, hq, -⟩
    exact ⟨pos, submit, hq⟩
  · rw [Capture.stepsOf, if_neg hs] at hsteps
    obtain rfl := List.prefix_nil.mp hsteps
    have hget : c.submits[before.length]? = some s := by rw [hc]; simp
    unfold upTo
    refine (prelude_succeeds c).bind ?_
    intro _ q hq
    refine (hq.submits_leads o (zipIdx_submits hc).symm).bind ?_
    intro _ q hq
    refine (hq.begins hget).bind ?_
    rintro _ q ⟨submit, hq⟩
    exact ⟨{}, submit, hq⟩

theorem After.place (h : After o c t p) : Place o c t p := by
  have hrun : heard o c t {} = .ok () p := h.run
  rcases prefix_flatMap h.listed with rfl | ⟨done, ⟨s, index⟩, rest, u, hlist, hu, rfl⟩
  · have hall := (List.append_nil c.submits.zipIdx).symm
    have hp := (heard_between o hall).of_ok hrun
    exact .between hall hp
  · obtain ⟨before, _, hc, rfl, hrest⟩ := List.zipIdx_eq_append_iff.mp hlist
    obtain ⟨s, after, rfl, heq, rfl⟩ := List.zipIdx_eq_cons_iff.mp hrest.symm
    rw [Nat.zero_add] at heq
    cases heq
    rcases List.prefix_concat_iff.mp hu with rfl | hu
    · have hdone : c.signalsFor before.zipIdx ++ c.signalsOf s before.length =
          c.signalsFor (before.zipIdx ++ [(s, before.length)]) := by
        simp [Capture.signalsFor]
      have hlist : c.submits.zipIdx = (before.zipIdx ++ [(s, before.length)]) ++
          after.zipIdx (before.length + 1) := by
        rw [zipIdx_submits hc, List.append_assoc]
        rfl
      change heard o c (c.signalsFor before.zipIdx ++ c.signalsOf s before.length) {} = _ at hrun
      change Place o c (c.signalsFor before.zipIdx ++ c.signalsOf s before.length) p
      rw [hdone] at hrun ⊢
      have hp := (heard_between o hlist).of_ok hrun
      exact .between hlist hp
    · rcases List.prefix_cons_iff.mp hu with rfl | ⟨v, rfl, hv⟩
      · rw [List.append_nil] at hrun ⊢
        have hp := (heard_between o hlist).of_ok hrun
        exact .between hlist hp
      · obtain ⟨steps, hsteps, rfl⟩ := List.prefix_map_iff.mp hv
        change heard o c (c.signalsFor before.zipIdx ++ _) {} = _ at hrun
        rw [← upTo_eq_heard] at hrun
        obtain ⟨pos, submit, hq⟩ := (upTo_during o hc hsteps).of_ok hrun
        exact .during hc hsteps hq

/-! ## Between the walks -/

/-- From `p` to `q` a submit begins or ends. The packets and markers are the same, and the markers
share the same packets. None of them is open, and no packet waits for a command buffer. -/
structure Settles (p q : Pass) : Prop where
  course : p.Course q
  sound : q.Sound
  nodes : ∃ new : List Node, q.nodes = p.nodes ++ new ∧
    ∀ node ∈ new, node.kind ≠ .packet ∧ node.kind ≠ .marker
  shared : ∀ v n, p.nodes.kind? n = some .marker → q.shared v n = p.shared v n
  markers : q.markers = []
  beginPackets : q.beginPackets = #[]
  metadataVersion : q.metadataVersion = p.metadataVersion
  hasCallMarker : q.hasCallMarker = p.hasCallMarker

theorem Settles.kind {n : Nat} (h : p.Settles q) (hn : q.nodes.kind? n = some .marker) :
    p.nodes.kind? n = some .marker := by
  obtain ⟨new, hnodes, hnew⟩ := h.nodes
  exact Nodes.kind?_of_append (fun node hnode => (hnew node hnode).2) (hnodes ▸ hn)

/-- Outside of submits no marker is open. -/
theorem Apart.markers_eq_nil (h : p.Apart) (hs : p.submit = none) : p.markers = [] := by
  refine List.eq_nil_iff_forall_not_mem.mpr fun m hm => ?_
  obtain ⟨_, hs', -⟩ := h.stacked.markers m hm
  cases hs.symm.trans hs'

/-- Outside of submits no packet waits for a command buffer. -/
theorem Apart.beginPackets_eq_empty (h : p.Apart) (hs : p.submit = none) : p.beginPackets = #[] := by
  refine Array.toList_eq_nil_iff.mp (List.eq_nil_iff_forall_not_mem.mpr fun n hn => ?_)
  obtain ⟨_, hs', -⟩ := h.beginPackets n hn
  cases hs.symm.trans hs'

/-! ## What a signal does -/

/-- What a build does when it is told of a signal. -/
inductive Hears (o : Options) (c : Capture) (p : Pass) : Signal → Pass → Prop
  | bounds {x : Signal} {q : Pass} : x.step? = none → p.Settles q → Hears o c p x q
  | steps {before : List Submit} {s : Submit} {steps : List Step} {x : Step} {submit : Nat}
      {q : Pass} :
    Moment o c before s steps p → Moment o c before s (steps ++ [x]) q →
    p.submit = some submit → p.Turns o c.memory before.length submit x q →
    Hears o c p (.step before.length x) q

/-- The walk of a submit has been reported when its end comes. -/
theorem signalsFor_concat {done : List (Submit × Nat)} {s : Submit} {index : Nat} :
    c.signalsFor (done ++ [(s, index)]) = (c.signalsFor done ++
      .begins index s :: (c.stepsOf s index).map (.step index)) ++ [.ends index s] := by
  simp [Capture.signalsFor, Capture.signalsOf]

theorem Hears.begins {before after : List Submit} {s : Submit}
    (hc : c.submits = before ++ s :: after) (hp : p.Between c before.zipIdx)
    (hq : receive o c (.begins before.length s) p = .ok () q) :
    Hears o c p (.begins before.length s) q := by
  obtain ⟨engine, hengine⟩ := hp.engines s (by simp [hc])
  obtain ⟨hsound, hadds, hctx⟩ :=
    (submitStart_succeeds hp.sound hengine before.length).of_ok (show submitStart _ _ p = _ from hq)
  exact .bounds rfl {
    course := .single hp.sound (.submitBegins hp.closed hengine hadds hctx)
    sound := hsound
    nodes := ⟨_, hadds.nodes, by simp [submitNode]⟩
    shared := fun v n _ => (hadds.shared v n).trans (List.append_nil _)
    markers := (congrArg Pass.markers hctx :).trans (hp.reached.apart.markers_eq_nil hp.closed)
    beginPackets := (congrArg Pass.beginPackets hctx :).trans
      (hp.reached.apart.beginPackets_eq_empty hp.closed)
    metadataVersion := (congrArg Pass.metadataVersion hctx :)
    hasCallMarker := (congrArg Pass.hasCallMarker hctx :) }

theorem Hears.ends {done : List (Submit × Nat)} {s : Submit} {index submit : Nat} {t : List Step}
    {pos : Walk.Position} (hp : p.During c done s index t pos submit)
    (hq : receive o c (.ends index s) p = .ok () q) : Hears o c p (.ends index s) q := by
  obtain ⟨_, r, hr, hq⟩ := exists_of_bind_eq_ok hq
  cases hout : c.outcomeOf s index with
  | error e =>
    rw [hout] at hr
    cases hr
  | ok _ =>
    rw [hout] at hr
    cases hr
    obtain ⟨hsound, hkeeps, hcourse, hctx⟩ :=
      (submitEnd_succeeds hp.follows.sound hp.follows.isOpen index).of_ok hq
    obtain ⟨new, hnodes, hnew⟩ := hkeeps.nodes
    exact .bounds rfl {
      course := hcourse
      sound := hsound
      nodes := ⟨new, hnodes, fun node hnode => (hnew node hnode).2⟩
      shared := hkeeps.markers
      markers := (congrArg Pass.markers hctx :)
      beginPackets := (congrArg Pass.beginPackets hctx :)
      metadataVersion := (congrArg Pass.metadataVersion hctx :)
      hasCallMarker := (congrArg Pass.hasCallMarker hctx :) }

/-- The last signal that has come led to the pass from the one before it. -/
theorem After.last (h : After o c (t ++ [x]) q) : ∃ p, After o c t p ∧ Hears o c p x q := by
  have hrun : heard o c (t ++ [x]) {} = .ok () q := h.run
  rw [heard_append] at hrun
  obtain ⟨_, p, hp, hx⟩ := exists_of_bind_eq_ok hrun
  have hone : [x].forM (receive o c) = receive o c x := bind_pure _
  rw [hone] at hx
  refine ⟨p, ⟨(List.prefix_append _ _).trans h.listed, hp⟩, ?_⟩
  have hplace := h.place
  generalize hu : t ++ [x] = u at hplace
  cases hplace with
  | @between done rest _ hlist _ =>
    rcases List.eq_nil_or_concat done with rfl | ⟨done, ⟨s, index⟩, rfl⟩
    · simp [Capture.signalsFor] at hu
    · rw [List.concat_eq_append, signalsFor_concat] at hu
      obtain ⟨rfl, heq⟩ := List.append_inj' hu rfl
      cases heq
      rw [List.concat_eq_append, List.append_assoc] at hlist
      obtain ⟨before, _, hc, rfl, hrest⟩ := List.zipIdx_eq_append_iff.mp hlist
      obtain ⟨s, after, rfl, heq, rfl⟩ := List.zipIdx_eq_cons_iff.mp hrest.symm
      rw [Nat.zero_add] at heq
      cases heq
      rw [← upTo_eq_heard] at hp
      obtain ⟨pos, submit, hduring⟩ := (upTo_during o hc (List.prefix_refl _)).of_ok hp
      exact .ends hduring hx
  | @during before after s steps pos submit _ hc hsteps hduring =>
    rcases List.eq_nil_or_concat steps with rfl | ⟨steps, y, rfl⟩
    · obtain ⟨rfl, heq⟩ := List.append_inj' hu rfl
      cases heq
      have hbetween := (heard_between o (zipIdx_submits hc)).of_ok hp
      exact .begins hc hbetween hx
    · rw [List.concat_eq_append, List.map_append, ← List.cons_append, ← List.append_assoc] at hu
      obtain ⟨rfl, heq⟩ := List.append_inj' hu rfl
      cases heq
      rw [List.concat_eq_append] at hsteps
      rw [← upTo_eq_heard] at hp
      have hs : s.isWalked := by
        by_contra hs
        rw [Capture.stepsOf, if_neg hs] at hsteps
        cases steps <;> cases List.prefix_nil.mp hsteps
      rw [Capture.stepsOf, if_pos hs] at hsteps
      have hq : (upTo o c before s (steps ++ [y])).run {} = .ok () q := by
        rw [upTo_eq_heard, List.map_append, ← List.cons_append, ← List.append_assoc]
        exact h.run
      have hmoment : Moment o c before s (steps ++ [y]) q := ⟨⟨after, hc⟩, hs, hsteps, hq⟩
      obtain ⟨r, submit, hr, hsubmit, hturns⟩ := hmoment.last
      cases hr.run.symm.trans hp
      exact .steps hr hmoment hsubmit hturns

theorem After.reached (h : After o c t p) : p.Reached := by
  cases h.place with
  | between _ hp => exact hp.reached
  | during _ _ hp => exact hp.reached

theorem After.sound (h : After o c t p) : p.Sound := by
  cases h.place with
  | between _ hp => exact hp.sound
  | during _ _ hp => exact hp.follows.sound

/-- What is true of a pass that has just started, and is kept where submits begin and end and by
every step of a walk, is true after all signals. It may speak of the steps that have been taken. -/
theorem After.follow {I : List (Nat × Step) → Pass → Prop} (h : After o c t p)
    (start : ∀ {q : Pass}, q.Started Engine.all → q.metadataVersion = c.metadataVersion → I [] q)
    (bounds : ∀ {l : List (Nat × Step)} {q r : Pass},
      q.Reached → q.Sound → q.Settles r → I l q → I l r)
    (steps : ∀ {l : List (Nat × Step)} {before : List Submit} {s : Submit} {u : List Step}
      {x : Step} {submit : Nat} {q r : Pass}, Moment o c before s u q →
      Moment o c before s (u ++ [x]) r → q.submit = some submit →
      q.Turns o c.memory before.length submit x r → I l q → I (l ++ [(before.length, x)]) r) :
    I (t.filterMap Signal.step?) p := by
  induction t using List.reverseRecOn generalizing p with
  | nil =>
    obtain ⟨_, q, hq, hp⟩ := exists_of_bind_eq_ok h.run
    cases hp
    obtain ⟨hstarted, -, hversion⟩ := (prelude_started c).of_ok hq
    exact start hstarted hversion
  | append_singleton t x ih =>
    rw [List.filterMap_append]
    obtain ⟨q, hq, hears⟩ := h.last
    cases hears with
    | bounds hx hsettles =>
      rw [List.filterMap_cons_none hx, List.filterMap_nil, List.append_nil]
      exact bounds hq.reached hq.sound hsettles (ih hq)
    | steps hq' hp hsubmit hturns => exact steps hq' hp hsubmit hturns (ih hq)

/-- The same for what speaks of the pass alone. -/
theorem After.induct {I : Pass → Prop} (h : After o c t p)
    (start : ∀ {q : Pass}, q.Started Engine.all → I q)
    (bounds : ∀ {q r : Pass}, q.Reached → q.Sound → q.Settles r → I q → I r)
    (steps : ∀ {before : List Submit} {s : Submit} {u : List Step} {x : Step} {submit : Nat}
      {q r : Pass}, Moment o c before s u q → Moment o c before s (u ++ [x]) r →
      q.submit = some submit → q.Turns o c.memory before.length submit x r → I q → I r) : I p :=
  h.follow (I := fun _ => I) (fun hq _ => start hq) bounds steps

theorem After.heard (hp : After o c t p) (hq : After o c (t ++ [x]) q) :
    receive o c x p = .ok () q := by
  have hrun : Pass.heard o c (t ++ [x]) {} = .ok () q := hq.run
  rw [heard_append] at hrun
  obtain ⟨_, r, hr, hx⟩ := exists_of_bind_eq_ok hrun
  cases hp.run.symm.trans hr
  have hone : [x].forM (receive o c) = receive o c x := bind_pure _
  rwa [hone] at hx

/-- The same for what speaks of the signals, and of what is done where submits begin and end. -/
theorem After.hear {I : List Signal → Pass → Prop} (h : After o c t p)
    (start : ∀ {q : Pass}, q.Started Engine.all → q.presents = c.presents → I [] q)
    (begins : ∀ {t : List Signal} {index : Nat} {s : Submit} {q r : Pass}, q.Sound →
      submitStart index s q = .ok () r → I t q → I (t ++ [.begins index s]) r)
    (steps : ∀ {t : List Signal} {before : List Submit} {s : Submit} {u : List Step} {x : Step}
      {submit : Nat} {q r : Pass}, Moment o c before s u q → Moment o c before s (u ++ [x]) r →
      q.submit = some submit → q.Turns o c.memory before.length submit x r → I t q →
      I (t ++ [.step before.length x]) r)
    (ends : ∀ {t : List Signal} {index : Nat} {s : Submit} {q r : Pass}, q.Sound →
      submitEnd index q = .ok () r → I t q → I (t ++ [.ends index s]) r) : I t p := by
  induction t using List.reverseRecOn generalizing p with
  | nil =>
    obtain ⟨_, q, hq, hp⟩ := exists_of_bind_eq_ok h.run
    cases hp
    obtain ⟨hstarted, hpresents, -⟩ := (prelude_started c).of_ok hq
    exact start hstarted hpresents
  | append_singleton t x ih =>
    obtain ⟨q, hq, hears⟩ := h.last
    have hx := hq.heard h
    cases x with
    | begins index s => exact begins hq.sound hx (ih hq)
    | step index y =>
      cases hears with
      | bounds hstep => cases hstep
      | steps hmoment hnext hsubmit hturns => exact steps hmoment hnext hsubmit hturns (ih hq)
    | ends index s =>
      obtain ⟨_, r, hout, hend⟩ := exists_of_bind_eq_ok hx
      obtain rfl : q = r := by
        cases ho : c.outcomeOf s index with
        | ok _ => rw [ho] at hout; cases hout; rfl
        | error e => rw [ho] at hout; cases hout
      exact ends hq.sound hend (ih hq)

end Pass

namespace Hierarchy

-- As above, with a whole build.
attribute [local irreducible] Pass.build

/-- A build that ends well has been told of all signals. -/
theorem ofCapture_becomes {o : Options} {c : Capture} {h : Hierarchy}
    (hb : ofCapture o c = .ok h) : ∃ q, Pass.After o c c.signals q ∧ q.Becomes h := by
  obtain ⟨_, hrun⟩ := exists_build hb
  rw [Pass.build_eq_heard] at hrun
  obtain ⟨_, q, hq, hfinish⟩ := exists_of_bind_eq_ok hrun
  have hafter : Pass.After o c c.signals q := ⟨List.prefix_refl _, hq⟩
  have hbecomes := (Pass.finish_becomes hafter.sound).of_ok hfinish
  exact ⟨q, hafter, hbecomes⟩

theorem ofCapture_after {o : Options} {c : Capture} {h : Hierarchy} (hb : ofCapture o c = .ok h) :
    ∃ q, Pass.After o c c.signals q ∧ h.nodes = q.nodes ∧
      ∀ v, (h.forest v).Bakes (q.allEdges.get v) := by
  obtain ⟨q, hq, hbecomes⟩ := ofCapture_becomes hb
  exact ⟨q, hq, hbecomes.nodes, hbecomes.forests⟩

end Hierarchy

end CaptureForest
