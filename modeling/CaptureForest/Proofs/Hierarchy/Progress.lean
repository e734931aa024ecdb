import CaptureForest.Proofs.Hierarchy.Finish
import CaptureForest.Proofs.Pass.Filing
import CaptureForest.Proofs.Walk.Record

/-! # Builds from submit to submit

`Pass.Between` holds of the pass between two submits, and `Pass.During` at each step of the walk of
one. Together they go through the whole build: it ends with a sound pass in which every packet is
filed, or it meets one of the causes of `Capture.Fault`. -/

namespace CaptureForest

namespace Capture

/-- The walk of a submit comes to a position. -/
def Reaches (c : Capture) (index : Nat) (pos : Walk.Position) : Prop :=
  ∃ s t rest, c.submits[index]? = some s ∧ s.isWalked ∧
    Walk.steps c.memory index s.ibs = t ++ rest ∧ Walk.Path c.memory index s.ibs {} t pos

/-- The walk of a submit reports a step. -/
def Reports (c : Capture) (index : Nat) (step : Step) : Prop :=
  ∃ s, c.submits[index]? = some s ∧ s.isWalked ∧ step ∈ Walk.steps c.memory index s.ibs

/-- The causes for which the build of a capture fails. -/
inductive Fault (c : Capture) : Error → Prop
  /-- Memory that is needed was not captured or runs past the largest address. -/
  | memory {index va size : Nat} :
    index < c.submits.length →
    c.memory.read? index va size = none ∨ maxAddress < va + size →
    Fault c (.memoryRead index va size)
  /-- A buffer is called from inside of `maxDepth` others. -/
  | depth {index : Nat} {pos : Walk.Position} {r : Walk.OpenRun} {rs : List Walk.OpenRun} :
    c.Reaches index pos → pos.runs = r :: rs → rs.length = maxDepth → r.latest.kind = .call →
    Fault c (.violation (.nestingTooDeep r.latest.ib.va))
  /-- A packet chains into one more buffer than a run may have. -/
  | chain {index : Nat} {pos : Walk.Position} {r : Walk.OpenRun} {rs : List Walk.OpenRun}
      {ib : IndirectBuffer} :
    c.Reaches index pos → pos.runs = r :: rs → r.earlier.length = maxChain →
    pos.pending = .ok (some (ib, .chain)) → Fault c (.violation (.chainTooLong ib.va))
  /-- A submit lists too many buffers. -/
  | place {index k : Nat} {s : Submit} :
    c.submits[index]? = some s → s.isWalked → k < s.ibs.length → 1 <<< Aux.ibIndexBits ≤ k →
    Fault c (.violation (.ibIndexTooLarge k))
  /-- A packet stands at too large an address. -/
  | address {index ibIndex va : Nat} {kind : PacketKind} {header : UInt32} :
    c.Reports index (.packet ibIndex va kind header) → kind ≠ .unknown →
    1 <<< Aux.packetAddressBits ≤ va → Fault c (.violation (.packetAddressTooLarge va))

/-- The capture that a command stream stands for. -/
def ofStream (engine queue : Engine) (words : Array UInt32) : Capture where
  submits := [{ engine, queue, ibs := [{ va := 0, size := words.size }] }]
  memory := .flat (Words.toBytes words)

/-- The steps of the walk of a submit, if it is walked. -/
def stepsOf (c : Capture) (s : Submit) (index : Nat) : List Step :=
  if s.isWalked then Walk.steps c.memory index s.ibs else []

end Capture

variable {c : Capture} {index : Nat} {s : Submit} {e : Error}

theorem Capture.Fault.of_misses (hs : c.submits[index]? = some s)
    (h : c.memory.Misses index e) : c.Fault e := by
  obtain ⟨va, size, rfl, hor⟩ := h
  exact .memory (List.getElem?_eq_some_iff.mp hs).1 hor

/-- Where a walk stops before its end there is a fault. -/
theorem Walk.Stops.fault {t : List Step} {pos : Position} (hs : c.submits[index]? = some s)
    (hwalked : s.isWalked) (ht : steps c.memory index s.ibs = t)
    (hpath : Path c.memory index s.ibs {} t pos) (h : Stops c.memory index pos e) : c.Fault e := by
  have hreaches : c.Reaches index pos :=
    ⟨s, t, [], hs, hwalked, by rw [List.append_nil, ht], hpath⟩
  cases h with
  | header _ _ _ _ _ hw => exact .of_misses hs (Reader.misses_of_word hw)
  | target hpend => exact .of_misses hs (hpath.pending_error hpend)
  | range _ _ _ _ hstop => exact .memory (List.getElem?_eq_some_iff.mp hs).1 (.inr hstop)
  | depth hr hdepth =>
    exact .depth hreaches hr hdepth (hpath.coherent.deep hr (Nat.le_of_eq hdepth.symm))
  | chain hr hchain hpend => exact .chain hreaches hr hchain hpend

namespace Pass

variable {p q : Pass} {done : List (Submit × Nat)} {t : List Step} {pos : Walk.Position}
  {submit : Nat}

/-- What has come of each of the submits that are done. -/
def entries (c : Capture) (done : List (Submit × Nat)) : List (Submit × Nat × List Step) :=
  done.map fun (s, index) => (s, index, c.stepsOf s index)

/-- A pass at some moment of a build. -/
def Reached (p : Pass) : Prop := ∃ engines q, Started engines q ∧ q.Course p

/-- Some submits are done and the next has not begun. -/
structure Between (c : Capture) (done : List (Submit × Nat)) (p : Pass) : Prop where
  reached : p.Reached
  sound : p.Sound
  closed : p.submit = none
  draw : p.drawIbs = []
  constant : p.constantIbs = []
  engines : ∀ s ∈ c.submits, ∃ n, p.engines.lookup s.engine = some n
  filing : p.Filing c (entries c done)

/-- The walk of a submit has come to a position by the steps `t`. -/
structure During (c : Capture) (done : List (Submit × Nat)) (s : Submit) (index : Nat)
    (t : List Step) (pos : Walk.Position) (submit : Nat) (p : Pass) : Prop where
  reached : p.Reached
  path : Walk.Path c.memory index s.ibs {} t pos
  follows : p.Follows submit pos
  last : ∃ earlier, p.nodes.ofKind .submit = earlier ++ [submit]
  engines : ∀ s ∈ c.submits, ∃ n, p.engines.lookup s.engine = some n
  filing : p.Filing c (entries c done ++ [(s, index, t)])

theorem Reached.trans (h : p.Reached) (hq : p.Course q) : q.Reached := by
  obtain ⟨engines, r, hr, hp⟩ := h
  exact ⟨engines, r, hr, hp.trans hq⟩

theorem Reached.change (h : p.Reached) (hp : p.Sound) (hc : p.Change q) : q.Reached :=
  h.trans (.single hp hc)

/-- What is true of a pass that has just started, and is preserved by all that can happen, is true
at every moment of a build. -/
theorem Reached.induct {I : Pass → Prop} (h : p.Reached)
    (start : ∀ {engines q}, Started engines q → I q)
    (step : ∀ {q r : Pass}, q.Sound → q.Change r → I q → I r) : I p := by
  obtain ⟨_, r, hr, hp⟩ := h
  exact hp.induct (start hr) step

/-- A submit begins. -/
theorem Between.begins (h : p.Between c done) (hs : c.submits[index]? = some s) :
    Succeeds (submitStart index s) p fun _ q => ∃ submit, q.During c done s index [] {} submit := by
  obtain ⟨engine, hengine⟩ := h.engines s (List.mem_of_getElem? hs)
  refine (submitStart_succeeds h.sound hengine index).imp ?_
  rintro _ q ⟨hq, hadds, hctx⟩
  have hdraw : q.drawIbs = [] := (congrArg Pass.drawIbs hctx :).trans h.draw
  have hconstant : q.constantIbs = [] := (congrArg Pass.constantIbs hctx :).trans h.constant
  have hengines : q.engines = p.engines := (congrArg Pass.engines hctx :)
  have hlast : q.nodes.ofKind .submit = p.nodes.ofKind .submit ++ [p.nodes.size] := by
    rw [hadds.nodes]
    exact Nodes.ofKind_append_single rfl
  exact ⟨p.nodes.size, {
    reached := h.reached.change h.sound (.submitBegins h.closed hengine hadds hctx)
    path := .nil
    follows := {
      sound := hq
      isOpen := (congrArg Pass.submit hctx :)
      entered := by
        have hnil : q.nodes.buffersBehind p.nodes.size = [] := by
          rw [hadds.nodes, Nodes.buffersBehind_append_of_ne (by simp [submitNode])]
          refine List.filter_eq_nil_iff.mpr fun n hn => ?_
          have := Nodes.kind?_lt (Nodes.mem_ofKind.mp hn)
          simp only [decide_eq_true_eq]
          omega
        rw [hnil]
        rfl
      runs := by simp [ibs, hdraw, hconstant]
      idle := by simp [idleIbs, hdraw, hconstant]
      engine := nofun }
    last := ⟨_, hlast⟩
    engines := by rw [hengines]; exact h.engines
    filing := h.filing.begins h.sound.sized hadds }⟩

/-- The walk of a submit goes on by a step that executes no packet. -/
theorem During.skips {step : Step} {pos' : Walk.Position} (h : p.During c done s index t pos submit)
    (hpath : Walk.Path c.memory index s.ibs {} (t ++ [step]) pos') (hreached : q.Reached)
    (hq : q.Follows submit pos') (hkeeps : p.Keeps q) (hstep : step.isPacket = false) :
    q.During c done s index (t ++ [step]) pos' submit := by
  obtain ⟨earlier, hlast⟩ := h.last
  exact {
    reached := hreached
    path := hpath
    follows := hq
    last := ⟨earlier, hkeeps.ofKind_submit.trans hlast⟩
    engines := by rw [hkeeps.engines]; exact h.engines
    filing := (h.filing.skip hlast hstep).keeps h.follows.sound.sized hkeeps }

/-- The walk of a submit goes on by a packet that is filed. -/
theorem During.files {kind : PacketKind} {header word : UInt32} {buffer : Nat} {rest : List Step}
    {r : Walk.OpenRun} {rs : List Walk.OpenRun} {pos' : Walk.Position}
    (h : p.During c done s index t pos submit) (hs : c.submits[index]? = some s)
    (hwalked : s.isWalked)
    (ht : Walk.steps c.memory index s.ibs =
      t ++ .packet r.latest.ibIndex r.next kind header :: rest)
    (hpath : Walk.Path c.memory index s.ibs {}
      (t ++ [.packet r.latest.ibIndex r.next kind header]) pos')
    (hr : pos.runs = r :: rs) (hlt : r.next < r.latest.ib.stop) (hreached : q.Reached)
    (hq : q.Follows submit pos') (hk : kind ≠ .unknown) (hbuffer : p.ibs.top? = some buffer)
    (hfiles : p.Files q submit buffer (packetNode p.onConstantEngine r.next kind word)) :
    q.During c done s index (t ++ [.packet r.latest.ibIndex r.next kind header]) pos' submit := by
  obtain ⟨earlier, hlast⟩ := h.last
  obtain ⟨st, ss, hibs, htop, -⟩ := h.follows.top? hr
  obtain rfl : st.top = buffer := by
    rw [hibs] at hbuffer
    exact Option.some.inj hbuffer
  have hmem : r.latest ∈ pos.visits := by simp [Walk.Position.visits, hr, Walk.OpenRun.visits]
  rw [← h.follows.engine r.latest hmem] at hfiles
  have hengines : q.engines = p.engines := (congrArg Site.engines hfiles.site :)
  let x : Execution := ⟨index, r.latest, r.next, kind, header⟩
  have hx : c.Executes x := ⟨s, t, rest, pos, r, rs, hs, hwalked, ht, h.path, hr, rfl⟩
  exact {
    reached := hreached
    path := hpath
    follows := hq
    last := ⟨earlier, (hfiles.ofKind_eq rfl (by decide)).trans hlast⟩
    engines := by rw [hengines]; exact h.engines
    filing := h.filing.files (x := x) h.follows.sound hlast hx hs hk
      ⟨h.path.coherent.le_next r (by simp [hr]), hlt⟩ htop hfiles }

/-- The walk of a submit goes on by a step. -/
theorem During.step_leads {step : Step} {rest : List Step} {pos' : Walk.Position} (o : Options)
    (h : p.During c done s index t pos submit) (hs : c.submits[index]? = some s)
    (hwalked : s.isWalked) (ht : Walk.steps c.memory index s.ibs = t ++ step :: rest)
    (move : Walk.Move c.memory index s.ibs pos step pos') :
    Leads (Pass.step o c.memory index step) p
      (fun _ q => q.During c done s index (t ++ [step]) pos' submit ∧
        p.Turns o c.memory index submit step q) fun e _ => c.Fault e := by
  have hpath := h.path.snoc move
  refine (Pass.step_leads o h.follows h.path.coherent move).mono ?_ ?_
  · rintro _ q ⟨hq, htakes, hturns⟩
    refine ⟨?_, hturns⟩
    have hreached := h.reached.trans (hturns.course h.follows.sound h.follows.isOpen)
    by_cases hstep : step.isPacket
    · cases move with
      | list | call | chain | leave => cases hstep
      | packet hr _ _ _ _ hlt _ =>
        rcases htakes with ⟨hk, -⟩ | ⟨hk, buffer, word, hbuffer, hfiles⟩
        · simp [Step.isPacket, hk] at hstep
        · exact h.files hs hwalked ht hpath hr hlt hreached hq hk hbuffer hfiles
    · have hstep : step.isPacket = false := by simpa using hstep
      exact h.skips hpath hreached hq (htakes.keeps hstep) hstep
  · intro e q he
    have hmem : step ∈ Walk.steps c.memory index s.ibs := by rw [ht]; simp
    cases he with
    | place hlt hle => exact .place hs hwalked hlt hle
    | address hk hva => exact .address ⟨s, hs, hwalked, hmem⟩ hk hva
    | memory _ hm => exact .of_misses hs hm

/-- The walk of a submit goes on from its begin by some of its steps. -/
theorem During.steps_leads {rest : List Step} {final : Walk.Position} (o : Options)
    (h : p.During c done s index [] {} submit) (hs : c.submits[index]? = some s)
    (hwalked : s.isWalked) (ht : Walk.steps c.memory index s.ibs = t ++ rest)
    (hfinal : Walk.Path c.memory index s.ibs {} (t ++ rest) final) :
    Leads (t.forM (Pass.step o c.memory index)) p
      (fun _ q => ∃ pos, q.During c done s index t pos submit ∧
        Walk.Path c.memory index s.ibs pos rest final) fun e _ => c.Fault e := by
  -- What is still to come leads from where the walk is to where it ends.
  refine (Leads.forM (I := fun before q => ∃ pos after, t = before ++ after ∧
    q.During c done s index before pos submit ∧
    Walk.Path c.memory index s.ibs pos (after ++ rest) final) ⟨{}, t, rfl, h, hfinal⟩ ?_).imp ?_
  · rintro before step after q hsplit ⟨pos, after', hsplit', hq, hrest⟩
    rw [hsplit] at hsplit'
    cases List.append_cancel_left hsplit'
    obtain ⟨pos', move, hrest⟩ := hrest.head
    rw [hsplit, List.append_assoc, List.cons_append] at ht
    refine (hq.step_leads o hs hwalked ht move).imp ?_
    rintro _ r ⟨hr, -⟩
    exact ⟨pos', after, by simp [hsplit], hr, hrest⟩
  · rintro _ q ⟨pos, after, hsplit, hq, hrest⟩
    obtain rfl : after = [] := List.append_right_eq_self.mp hsplit.symm
    exact ⟨pos, hq, hrest⟩

/-- A submit ends. -/
theorem During.ends (h : p.During c done s index (c.stepsOf s index) pos submit) :
    Succeeds (submitEnd index) p fun _ q => q.Between c (done ++ [(s, index)]) := by
  refine (submitEnd_succeeds h.follows.sound h.follows.isOpen index).imp ?_
  rintro _ q ⟨hq, hkeeps, hcourse, hctx⟩
  exact {
    reached := h.reached.trans hcourse
    sound := hq
    closed := (congrArg Pass.submit hctx :)
    draw := (congrArg drawIbs hctx :)
    constant := (congrArg constantIbs hctx :)
    engines := by rw [hkeeps.engines]; exact h.engines
    filing := by
      rw [entries, List.map_append]
      exact h.filing.keeps h.follows.sound.sized hkeeps }

theorem Between.runSubmit_leads (o : Options) (h : p.Between c done)
    (hs : c.submits[index]? = some s) :
    Leads (runSubmit o c.memory index s) p (fun _ q => q.Between c (done ++ [(s, index)]))
      fun e _ => c.Fault e := by
  unfold runSubmit
  refine (h.begins hs).bind ?_
  rintro _ q ⟨submit, hq⟩
  by_cases hwalked : s.isWalked
  · rw [if_pos hwalked]
    obtain ⟨final, hfinal, hend⟩ := Walk.path_steps c.memory index s.ibs
    refine Leads.bind
      (Q := fun _ r => ∃ pos, r.During c done s index (c.stepsOf s index) pos submit)
      ?_ fun _ r hr => ?_
    · unfold walk
      rw [Walk.run_eq_replay]
      unfold Walk.replay
      refine (hq.steps_leads o hs hwalked (List.append_nil _).symm
        (by rw [List.append_nil]; exact hfinal)).bind ?_
      rintro _ r ⟨pos, hr, hrest⟩
      obtain rfl := hrest.of_nil
      rw [leads_ofExcept]
      cases hout : Walk.outcome c.memory index s.ibs with
      | error e =>
        rw [hout] at hend
        exact hend.fault hs hwalked rfl hfinal
      | ok _ => exact ⟨final, by rw [Capture.stepsOf, if_pos hwalked]; exact hr⟩
    · obtain ⟨pos, hr⟩ := hr
      exact hr.ends.leads fun _ _ => id
  · rw [if_neg hwalked]
    have hend : q.During c done s index (c.stepsOf s index) {} submit := by
      rw [Capture.stepsOf, if_neg hwalked]
      exact hq
    exact hend.ends.leads fun _ _ => id

/-! ## Builds -/

-- An action without variables would be run when a statement about it is unified with another.
attribute [local irreducible] start

theorem Started.ofKind_eq_nil {engines : List Engine} {k : NodeKind} (h : p.Started engines)
    (hk : k ≠ .root ∧ k ≠ .engine) : p.nodes.ofKind k = [] := by
  refine List.eq_nil_iff_forall_not_mem.mpr fun n hn => ?_
  rcases h.kinds (Nodes.mem_ofKind.mp hn) with rfl | rfl
  · exact hk.1 rfl
  · exact hk.2 rfl

/-- A pass that has just started is ready for the first submit. -/
theorem Started.between {engines : List Engine} (h : p.Started engines)
    (hengines : ∀ s ∈ c.submits, s.engine ∈ engines) : p.Between c [] where
  reached := ⟨engines, p, h, .refl p⟩
  sound := h.sound
  closed := h.remembers Pass.submit (fun _ => rfl) fun _ _ _ _ => rfl
  draw := h.remembers Pass.drawIbs (fun _ => rfl) fun _ _ _ _ => rfl
  constant := h.remembers Pass.constantIbs (fun _ => rfl) fun _ _ _ _ => rfl
  engines s hs := by
    cases hn : p.engines.lookup s.engine with
    | some n => exact ⟨n, rfl⟩
    | none =>
      have hmem := hengines s hs
      rw [← List.zipIdx_map_fst 1 engines, ← h.engines] at hmem
      obtain ⟨⟨engine, n⟩, he, heq⟩ := List.mem_map.mp hmem
      have := List.lookup_eq_none_iff.mp hn (engine, n) he
      simp [← heq] at this
  filing := by
    refine ⟨?_, fun k hk => ?_⟩
    · rw [h.ofKind_eq_nil (by decide)]
      exact .nil
    · rcases h.kinds hk with hk | hk <;> cases hk

/-- Submits run one after the other. -/
theorem Between.submits_leads {list after : List (Submit × Nat)} (o : Options)
    (h : p.Between c []) (hlist : list ++ after = c.submits.zipIdx) :
    Leads (list.forM fun (s, index) => runSubmit o c.memory index s) p
      (fun _ q => Between c list q) fun e _ => c.Fault e := by
  refine Leads.forM (I := fun done q => Between c done q) h ?_
  rintro done ⟨s, index⟩ rest q hsplit hq
  refine hq.runSubmit_leads o ?_
  have hmem : (s, index) ∈ c.submits.zipIdx := by
    rw [← hlist, hsplit]
    simp
  exact List.mem_zipIdx_iff_getElem?.mp hmem

/-- What a finished build has come to. -/
def Finishes (c : Capture) (h : Hierarchy) : Prop :=
  ∃ q : Pass, q.Between c c.submits.zipIdx ∧ q.Becomes h

theorem Between.finish_leads (h : p.Between c c.submits.zipIdx) :
    Succeeds finish p fun hier _ => Finishes c hier :=
  (finish_becomes h.sound).imp fun _ _ hh => ⟨p, h, hh⟩

/-- The beginning of a build, up to the first submit. -/
@[irreducible]
def prelude (c : Capture) : PassM Unit := do
  start Engine.all
  modify fun p => { p with presents := c.presents, metadataVersion := c.metadataVersion }

theorem prelude_succeeds (c : Capture) :
    Succeeds (prelude c) p fun _ q => q.Between c [] := by
  unfold prelude
  refine (start_succeeds Engine.all).bind ?_
  rintro _ q ⟨hq, -⟩
  have hengines : ∀ s ∈ c.submits, s.engine ∈ Engine.all := fun s _ => by
    cases s.engine <;> decide
  exact leads_modify.mpr ((hq.presents c.presents c.metadataVersion).between hengines)

theorem build_eq (o : Options) (c : Capture) : build o c = prelude c >>= fun _ =>
    (c.submits.zipIdx.forM fun (s, index) => runSubmit o c.memory index s) >>= fun _ => finish := by
  simp only [build, prelude, bind_assoc]

theorem build_leads (o : Options) (c : Capture) :
    Leads (build o c) p (fun h _ => Finishes c h) fun e _ => c.Fault e := by
  rw [build_eq]
  refine (prelude_succeeds c).bind ?_
  intro _ q hq
  refine (hq.submits_leads o (List.append_nil _)).bind ?_
  intro _ r hr
  exact hr.finish_leads.leads fun _ _ => id

theorem buildStream_leads {engine : Engine} (o : Options) (hengine : engine.isDecodable)
    (queue : Engine) (words : Array UInt32) :
    Leads (buildStream o engine queue words) p
      (fun h _ => Finishes (Capture.ofStream engine queue words) h)
      fun e _ => (Capture.ofStream engine queue words).Fault e := by
  unfold buildStream
  rw [if_pos hengine]
  refine (start_succeeds [engine]).bind ?_
  rintro _ q ⟨hq, -⟩
  have hbetween : q.Between (Capture.ofStream engine queue words) [] :=
    hq.between (by simp [Capture.ofStream])
  have hs : (Capture.ofStream engine queue words).submits[0]? =
      some { engine, queue, ibs := [{ va := 0, size := words.size }] } := rfl
  refine (hbetween.runSubmit_leads o hs).bind ?_
  intro _ r hr
  exact hr.finish_leads.leads fun _ _ => id

end Pass

namespace Hierarchy

-- As above, with a whole build.
attribute [local irreducible] Pass.build Pass.buildStream

/-- The result of a build that starts with an empty pass. -/
theorem result_spec {x : PassM Hierarchy} {p : Pass} {Q : Hierarchy → Prop} {E : Error → Prop}
    {result : Except Error Hierarchy} (hx : Leads x p (fun h _ => Q h) fun e _ => E e)
    (hresult : result = match x.run p with
      | .ok h _ => .ok h
      | .error e _ => .error e) :
    (∀ h, result = .ok h → Q h) ∧ ∀ e, result = .error e → E e := by
  subst hresult
  cases hr : x.run p with
  | ok h q =>
    refine ⟨fun h' heq => ?_, nofun⟩
    cases heq
    exact hx.of_ok hr
  | error e q =>
    refine ⟨nofun, fun e' heq => ?_⟩
    cases heq
    exact hx.of_error hr

/-- A hierarchy is the result of a whole build. -/
theorem exists_build {o : Options} {c : Capture} {h : Hierarchy} (hb : ofCapture o c = .ok h) :
    ∃ q, Pass.build o c {} = .ok h q := by
  unfold ofCapture at hb
  split at hb
  · rename_i h' q hrun
    cases hb
    exact ⟨q, hrun⟩
  · cases hb

theorem ofCapture_spec (o : Options) (c : Capture) :
    (∀ h, ofCapture o c = .ok h → Pass.Finishes c h) ∧
      ∀ e, ofCapture o c = .error e → c.Fault e :=
  result_spec (Pass.build_leads o c) rfl

theorem ofStream_spec (o : Options) {engine : Engine} (hengine : engine.isDecodable)
    (queue : Engine) (words : Array UInt32) :
    (∀ h, ofStream o engine queue words = .ok h →
        Pass.Finishes (.ofStream engine queue words) h) ∧
      ∀ e, ofStream o engine queue words = .error e →
        Capture.Fault (.ofStream engine queue words) e :=
  result_spec (Pass.buildStream_leads o hengine queue words) rfl

end Hierarchy

end CaptureForest
