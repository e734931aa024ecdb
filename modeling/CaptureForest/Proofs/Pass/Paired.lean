import CaptureForest.Proofs.Pass.Tops
import CaptureForest.Proofs.View.StableSort
import CaptureForest.Proofs.Hierarchy.Finish

/-! # The two views of buffers

A pass may be told of submits and steps in any order, not only in that of a walk (`Pass.Callback`).
The two views that list buffers are then filled alike, but where a submit ends its buffers are
sorted in one of them (`Pass.Paired`). So below the engines the views differ in the order of the
buffers of a submit, and in nothing else (`Pass.submitEnd_sorts`). -/

namespace CaptureForest

namespace Nodes

variable {nodes : Nodes} {new : List Node} {n : Nat}

/-- The place by which a child of a submit is sorted. -/
def place (nodes : Nodes) (n : Nat) : Nat :=
  (nodes.ibIndex? n).getD (1 <<< Aux.ibIndexBits - 1)

theorem ibIndex?_append (hn : n < nodes.size) :
    Nodes.ibIndex? (nodes ++ new) n = nodes.ibIndex? n := by
  rw [ibIndex?, aux?, getElem?_append_old hn]
  rfl

/-- All buffers have a place in the list of their submit. -/
def Placed (nodes : Nodes) : Prop := ∀ n, nodes.kind? n = some .ib → ∃ i, nodes.ibIndex? n = some i

theorem Placed.append (h : nodes.Placed) (hnew : ∀ node ∈ new, node.kind ≠ .ib) :
    Nodes.Placed (nodes ++ new) := fun n hn => by
  have hn := kind?_of_append hnew hn
  rw [ibIndex?_append (kind?_lt hn)]
  exact h n hn

end Nodes

namespace Pass

variable {o : Options} {p q : Pass} {new : List Node} {submit n : Nat}

/-- What is told to a pass: that a submit begins or ends, or a step in some memory. -/
inductive Callback where
  | begins (index : Nat) (s : Submit)
  | step (m : Reader) (index : Nat) (x : Step)
  | ends (index : Nat)

/-- What a pass does then. -/
def Callback.run (o : Options) : Callback → PassM Unit
  | .begins index s => submitStart index s
  | .step m index x => Pass.step o m index x
  | .ends index => submitEnd index

/-- A pass is started and told of presents, and then of anything. -/
def told (o : Options) (engines : List Engine) (presents : List Present) (version : UInt32)
    (history : List Callback) : PassM Unit := do
  start engines
  modify fun p => { p with presents := presents, metadataVersion := version }
  history.forM (Callback.run o)

/-- A submit begins, and steps follow, of a walk or of none. -/
def filled (o : Options) (index : Nat) (s : Submit) (steps : List (Reader × Nat × Step)) :
    PassM Unit := do
  submitStart index s
  steps.forM fun (m, i, x) => Pass.step o m i x

/-- Below the engines, the views of buffers are the same, up to the order of the children of submits
that have ended. -/
structure Paired (p : Pass) : Prop where
  placed : p.nodes.Placed
  shared : ∀ n, p.shared .submit n = p.shared .engine n
  owned : ∀ n k, p.nodes.kind? n = some k → k ≠ .root → k ≠ .engine →
    p.owned .submit n = p.owned .engine n ∨ k = .submit ∧ p.submit ≠ some n ∧
      StablySorted p.nodes.place (p.owned .engine n) (p.owned .submit n)
  /-- Outside of submits no buffer is open. -/
  idle : p.submit = none → p.drawIbs = [] ∧ p.constantIbs = []

/-- What a step of a walk keeps. -/
structure Stays (p q : Pass) : Prop where
  sound : q.Sound
  paired : q.Paired
  submit : q.submit = p.submit
  nodes : ∃ new : List Node, q.nodes = p.nodes ++ new

theorem Stays.trans {r : Pass} (h : p.Stays q) (h' : q.Stays r) : p.Stays r where
  sound := h'.sound
  paired := h'.paired
  submit := h'.submit.trans h.submit
  nodes := by
    obtain ⟨new, hnew⟩ := h.nodes
    obtain ⟨more, hmore⟩ := h'.nodes
    exact ⟨new ++ more, by rw [hmore, hnew, Nodes.append_append_list]⟩

/-- The children of submits and buffers keep their places. -/
theorem StablySorted.grow {l sorted : List Nat} (h : StablySorted p.nodes.place l sorted)
    (hl : ∀ c ∈ l, c < p.nodes.size) :
    StablySorted (Nodes.place (p.nodes ++ new)) l sorted :=
  h.congr fun c hc => by rw [Nodes.place, Nodes.ibIndex?_append (hl c hc), Nodes.place]

/-- A node gets the same children in both views, and none if it is a submit that has ended. -/
theorem Paired.owned_grow {k : NodeKind} {l : List Nat} (h : p.Paired) (hp : p.Sound)
    (hnodes : q.nodes = p.nodes ++ new) (hn : q.nodes.kind? n = some k) (hroot : k ≠ .root)
    (hengine : k ≠ .engine) (howned : ∀ v ∈ View.withBuffers, q.owned v n = p.owned v n ++ l)
    (hended : n < p.nodes.size → k = .submit → p.submit ≠ some n → l = [] ∧ q.submit ≠ some n) :
    q.owned .submit n = q.owned .engine n ∨ k = .submit ∧ q.submit ≠ some n ∧
      StablySorted q.nodes.place (q.owned .engine n) (q.owned .submit n) := by
  rw [howned .submit (by decide), howned .engine (by decide)]
  rcases Nat.lt_or_ge n p.nodes.size with hlt | hge
  · have hk : p.nodes.kind? n = some k := by
      rwa [hnodes, Nodes.kind?, Nodes.getElem?_append_old hlt] at hn
    rcases h.owned n k hk hroot hengine with heq | ⟨rfl, hopen, hsorted⟩
    · exact .inl (by rw [heq])
    · obtain ⟨rfl, hopen'⟩ := hended hlt rfl hopen
      rw [List.append_nil, List.append_nil, hnodes]
      exact .inr ⟨rfl, hopen', StablySorted.grow hsorted fun c hc => hp.arranged.child_lt hc⟩
  · rw [hp.sized.owned_eq_nil hge, hp.sized.owned_eq_nil hge]
    exact .inl rfl

/-! ## Submits -/

/-- A submit begins, with the last node. -/
theorem Paired.begins {index : Nat} {s : Submit} (h : p.Paired) (hp : p.Sound)
    (hq : submitStart index s p = .ok () q) : q.Sound ∧ q.Paired ∧
      q.submit = some p.nodes.size ∧ q.nodes = p.nodes ++ [submitNode index s] := by
  obtain ⟨engine, hengine, -⟩ := require_ok (e := p.engines.lookup s.engine) hq
  obtain ⟨hsound, hadds, hctx⟩ := (submitStart_succeeds hp hengine index).of_ok hq
  have hsubmit : q.submit = some p.nodes.size := (congrArg Pass.submit hctx :)
  have hlisted : p.nodes.kind? engine = some .engine := by
    obtain ⟨before, after, heq, -⟩ := List.lookup_eq_some_iff.mp hengine
    exact hp.engines s.engine engine (by simp [heq])
  have hshared (v : View) (n : Nat) : q.shared v n = p.shared v n :=
    (hadds.shared v n).trans (List.append_nil _)
  refine ⟨hsound, ?_, hsubmit, hadds.nodes⟩
  exact {
    placed := by rw [hadds.nodes]; exact h.placed.append (by simp [submitNode])
    shared := fun n => by rw [hshared, hshared, h.shared]
    idle := fun hnone => by cases hsubmit.symm.trans hnone
    owned := fun n k hn hroot hne => by
      refine h.owned_grow (l := []) hp hadds.nodes hn hroot hne (fun v _ => ?_) fun hlt _ _ => ?_
      · rw [List.append_nil]
        refine hadds.owned_eq fun e he => ?_
        rcases List.mem_append.mp he with he | he
        · cases List.mem_singleton.mp (Links.mem_on.mp he).2
          rintro rfl
          exact hne (Option.some.inj (hn.symm.trans (hadds.kind? hlisted)))
        · cases List.mem_singleton.mp (Links.mem_on.mp he).2
          rintro rfl
          exact hroot (Option.some.inj (hn.symm.trans (hadds.kind? (hp.arranged.root.mpr rfl))))
      · rw [hsubmit]
        exact ⟨rfl, fun heq => Nat.lt_irrefl _ (Option.some.inj heq ▸ hlt)⟩ }

/-- A submit ends, and its buffers are sorted in one of the views. -/
theorem Paired.ends {index : Nat} (h : p.Paired) (hp : p.Sound) (hs : p.submit = some submit)
    (hq : submitEnd index p = .ok () q) : q.Sound ∧ q.Paired ∧ q.submit = none ∧
      StablySorted q.nodes.place (q.owned .engine submit) (q.owned .submit submit) ∧
      ∃ new : List Node, q.nodes = p.nodes ++ new := by
  have hsubmit := hp.submit submit hs
  have hsorts := sorted_replaces hp.sized (Nodes.kind?_lt hsubmit)
  obtain ⟨hsound, hkeeps, -, hctx⟩ := (submitEnd_succeeds hp hs index).of_ok hq
  obtain ⟨states, hstates, hnodes, -, howned, -⟩ := (submitEnd_adds hp hs index).of_ok hq
  have hnone : q.submit = none := (congrArg Pass.submit hctx :)
  have hnew : ∀ node ∈ states ++ presentNodes index p.presents.zipIdx, node.kind ≠ .ib := by
    intro node hnode
    rcases List.mem_append.mp hnode with hnode | hnode
    · rw [hstates node hnode]
      decide
    · obtain ⟨_, _, -, -, rfl⟩ := mem_presentNodes.mp hnode
      exact nofun
  have hengine : q.owned .engine submit = p.owned .engine submit := by
    rw [howned .engine (by decide), hsorts.owned, if_neg (by decide)]
  have hsorted : StablySorted q.nodes.place (q.owned .engine submit) (q.owned .submit submit) := by
    have hopen : p.owned .submit submit = p.owned .engine submit := by
      rcases h.owned submit .submit hsubmit nofun nofun with heq | ⟨-, hne, -⟩
      · exact heq
      · exact absurd hs hne
    have hnow : q.owned .submit submit =
        (p.owned .engine submit).mergeSort (p.nodes.place · ≤ p.nodes.place ·) := by
      rw [howned .submit (by decide), hsorts.owned, if_pos rfl, if_pos rfl, ← hopen]
      rfl
    rw [hnow, hengine, hnodes]
    exact StablySorted.grow (.mergeSort _ _) fun c hc => hp.arranged.child_lt hc
  refine ⟨hsound, ?_, hnone, hsorted, _, hnodes⟩
  exact {
    placed := by rw [hnodes]; exact h.placed.append hnew
    shared := fun n => by
      rw [hkeeps.shared _ (by decide), hkeeps.shared _ (by decide)]
      exact h.shared n
    owned := fun n k hn hroot hne => by
      by_cases heq : n = submit
      · subst heq
        have hk : q.nodes.kind? n = some .submit := by rw [hnodes]; exact Nodes.kind?_append hsubmit
        exact .inr ⟨Option.some.inj (hn.symm.trans hk), by simp [hnone], hsorted⟩
      · refine h.owned_grow (l := []) hp hnodes hn hroot hne (fun v hv => ?_)
          fun _ _ _ => ⟨rfl, by simp [hnone]⟩
        rw [List.append_nil, howned v hv, hsorts.owned]
        split
        · rename_i hview
          rw [hview]
        · rfl
    idle := fun _ => ⟨(congrArg Pass.drawIbs hctx :), (congrArg Pass.constantIbs hctx :)⟩ }

/-! ## Steps -/

theorem Paired.enters {ibIndex : Nat} {ib : IndirectBuffer} {kind : IbKind} (h : p.Paired)
    (hp : p.Sound) (hs : p.submit = some submit)
    (hq : enterBuffer o ibIndex ib kind p = .ok () q) : p.Stays q := by
  obtain ⟨-, hsound, hadds, hctx⟩ := (enterBuffer_leads hp hs o ibIndex ib kind).of_ok hq
  have hsubmit : q.submit = p.submit := by
    have : q.submit = ((p.onEngine ib.constantEngine).entered p.nodes.size kind).submit :=
      (congrArg Pass.submit hctx :)
    exact this.trans modifyIbs_submit
  have hstart : (p.onEngine ib.constantEngine).Sound := { hp with stacked := { hp.stacked with } }
  have hshared (v : View) (n : Nat) : q.shared v n = p.shared v n :=
    (hadds.shared v n).trans (List.append_nil _)
  refine ⟨hsound, ?_, hsubmit, _, hadds.nodes⟩
  exact {
    placed := fun n hn => by
      rcases Nat.lt_or_ge n p.nodes.size with hlt | hge
      · rw [hadds.nodes, Nodes.kind?, Nodes.getElem?_append_old hlt] at hn
        rw [hadds.nodes, Nodes.ibIndex?_append hlt]
        exact h.placed n hn
      · have hlt := Nodes.kind?_lt hn
        rw [hadds.size] at hlt
        obtain rfl : n = p.nodes.size := Nat.le_antisymm (Nat.lt_succ_iff.mp hlt) hge
        refine ⟨ibIndex, ?_⟩
        rw [hadds.nodes, Nodes.ibIndex?, Nodes.aux?, Nodes.getElem?_append_head]
        rfl
    shared := fun n => by rw [hshared, hshared, h.shared]
    idle := fun hnone => by rw [hsubmit, hs] at hnone; cases hnone
    owned := fun n k hn hroot hne => by
      refine h.owned_grow hp hadds.nodes hn hroot hne
        (fun v hv => (hadds.owned v n).trans (by rw [Links.on_apply, if_pos hv]))
        fun hlt hk hopen => ⟨?_, by rwa [hsubmit]⟩
      refine List.eq_nil_iff_forall_not_mem.mpr fun c hc => ?_
      obtain ⟨rfl, -⟩ := Prod.mk.inj (List.mem_singleton.mp (EdgeLog.mem_children.mp hc))
      rcases ibOwner_mem o (p.onEngine ib.constantEngine) submit kind with heq | hmem
      · rw [heq] at hopen
        exact hopen hs
      · subst hk
        cases (hadds.kind? (hstart.kind?_ibs hmem)).symm.trans hn }

theorem Paired.leaves (h : p.Paired) (hp : p.Sound) (hq : leaveBuffer p = .ok () q) :
    p.Stays q := by
  obtain ⟨r, hr, -⟩ := require_ok (e := p.ibs.head?) hq
  have hsubmit : ∃ submit, p.submit = some submit := by
    cases hs : p.submit with
    | some submit => exact ⟨submit, rfl⟩
    | none =>
      obtain ⟨hdraw, hconstant⟩ := h.idle hs
      unfold Pass.ibs at hr
      split at hr
      · rw [hconstant] at hr; cases hr
      · rw [hdraw] at hr; cases hr
  obtain ⟨submit, hs⟩ := hsubmit
  obtain ⟨rfl, hsound⟩ := (leaveBuffer_succeeds hp hs hr).of_ok hq
  obtain ⟨_, _, _, _, _, hleft⟩ := p.left_eq
  refine ⟨hsound, ?_, by rw [hleft]; rfl, [], by rw [hleft]; exact Array.appendList_nil.symm⟩
  rw [hleft]
  exact ⟨h.placed, h.shared, h.owned, fun hnone => by cases hs.symm.trans hnone⟩

/-- The registers and fields of a packet are listed alike in both views, and nothing else is. -/
theorem Runs.owned_buffers {m : Reader} {index va : Nat} {kind : PacketKind} {header : UInt32}
    (hq : Runs o m index submit va kind header p q) (h : p.Sound) (hs : p.submit = some submit) :
    ∃ log : EdgeLog, (∀ e ∈ log, p.nodes.size ≤ e.1) ∧
      ∀ v ∈ View.withBuffers, ∀ n, q.owned v n = p.owned v n ++ log.children n := by
  have hfiled {buffer : Nat} {words : Array UInt32} {word : UInt32} {r : Pass}
      (hr : Logs o submit buffer va kind word words p r) (hquiet : r.Quiet q) :
      ∃ log : EdgeLog, (∀ e ∈ log, p.nodes.size ≤ e.1) ∧
        ∀ v ∈ View.withBuffers, ∀ n, q.owned v n = p.owned v n ++ log.children n := by
    refine ⟨packetLog o p.nodes.size kind word words, fun e he => (le_of_mem_packetLog he).1,
      fun v hv n => ?_⟩
    have hv' : v ∈ View.withPackets := by revert v; decide
    rw [hquiet.owned v hv, hr.adds.owned, Links.on_apply, if_pos hv']
  cases hq with
  | works _ _ _ hr hw hshare =>
    have hsub := (congrArg Site.submit hr.site :).trans hs
    obtain ⟨hsound, hquiet⟩ := hw.sound (hr.sound h) hsub
    obtain ⟨new, hnew, -⟩ := hquiet.nodes
    obtain ⟨-, hquiet'⟩ := hshare.sound hsound (by
      rw [hnew]
      exact Nodes.kind?_append hr.packet_kind?)
    exact hfiled hr (hquiet.trans hquiet')
  | obeys _ _ _ hr hobeys =>
    have hsub := (congrArg Site.submit hr.site :).trans hs
    obtain ⟨-, hquiet⟩ := hobeys.sound (hr.sound h).marked hsub
    exact hfiled hr { hquiet with }

theorem Paired.packet {m : Reader} {index va : Nat} {kind : PacketKind} {header : UInt32}
    (h : p.Paired) (hp : p.Sound) (hq : Pass.packet o m index va kind header p = .ok () q) :
    p.Stays q := by
  by_cases hk : kind = .unknown
  · subst hk
    obtain rfl : p = q := by cases hq; rfl
    exact ⟨hp, h, rfl, [], Array.appendList_nil.symm⟩
  have hrun := hq
  rw [Pass.packet, if_neg hk] at hrun
  obtain ⟨submit, hs, hrun⟩ := openSubmit_ok hrun
  obtain ⟨buffer, hb, -⟩ := require_ok (e := p.ibs.top?) hrun
  obtain ⟨r, hr, hn⟩ := IbStack.top?_mem hb
  have hbuffer := hp.buffers r (ibs_mem hr) buffer hn
  have hruns : Runs o m index submit va kind header p q :=
    Leads.of_ok (Q := fun _ r => Runs o m index submit va kind header p r) hq
      (packet_leads o hp hs hb hbuffer hk)
  obtain ⟨hsound, _, _, -, hfiles⟩ := hruns.sound hp hs
  obtain ⟨log, hlog, howned⟩ := hruns.owned_buffers hp hs
  obtain ⟨new, hnodes, hnew⟩ := hfiles.nodes
  have hsubmit : q.submit = p.submit := (congrArg Site.submit hfiles.site :)
  refine ⟨hsound, ?_, hsubmit, _, hnodes⟩
  exact {
    placed := by
      rw [hnodes]
      refine h.placed.append fun node hnode => ?_
      rcases List.mem_cons.mp hnode with rfl | hnode
      · exact nofun
      · exact fun heq => absurd (hnew node hnode) (by rw [heq]; decide)
    shared := fun n => by
      rw [hfiles.shared _ (by decide), hfiles.shared _ (by decide), h.shared]
    idle := fun hnone => by rw [hsubmit, hs] at hnone; cases hnone
    owned := fun n k hn hroot hne => by
      refine h.owned_grow hp hnodes hn hroot hne (fun v hv => howned v hv n)
        fun hlt _ hopen => ⟨?_, by rwa [hsubmit]⟩
      refine List.eq_nil_iff_forall_not_mem.mpr fun c hc => ?_
      exact Nat.not_lt.mpr (hlog _ (EdgeLog.mem_children.mp hc)) hlt }

/-- The step of a walk, whether or not there is such a walk. -/
theorem Paired.step {m : Reader} {index : Nat} {x : Step} (h : p.Paired) (hp : p.Sound)
    (hq : Pass.step o m index x p = .ok () q) : p.Stays q := by
  cases x with
  | enter ibIndex ib kind =>
    obtain ⟨submit, hs, -⟩ := openSubmit_ok hq
    exact h.enters hp hs hq
  | leave ibIndex ib => exact h.leaves hp hq
  | packet ibIndex va kind header => exact h.packet hp hq

/-! ## Callbacks -/

-- An action without variables would be run when a statement about it is unified with another.
attribute [local irreducible] start

theorem Started.paired {engines : List Engine} (h : p.Started engines) : p.Paired where
  placed n hn := by rcases h.kinds hn with hk | hk <;> cases hk
  shared n := by
    have hnil (v : View) : p.shared v n = [] := List.eq_nil_iff_forall_not_mem.mpr fun c hc => by
      rcases h.kinds (h.sound.arranged.shares hc) with hk | hk <;> cases hk
    rw [hnil, hnil]
  owned n k hn hroot hengine := by
    rcases h.kinds hn with rfl | rfl
    · exact absurd rfl hroot
    · exact absurd rfl hengine
  idle _ := ⟨h.remembers Pass.drawIbs (fun _ => rfl) fun _ _ _ _ => rfl,
    h.remembers Pass.constantIbs (fun _ => rfl) fun _ _ _ _ => rfl⟩

theorem Paired.callback {x : Callback} (h : p.Paired) (hp : p.Sound)
    (hq : x.run o p = .ok () q) : q.Sound ∧ q.Paired := by
  cases x with
  | begins index s =>
    obtain ⟨hsound, hpaired, -⟩ := h.begins hp hq
    exact ⟨hsound, hpaired⟩
  | step m index x =>
    have hstays := h.step hp hq
    exact ⟨hstays.sound, hstays.paired⟩
  | ends index =>
    obtain ⟨submit, hs, -⟩ := openSubmit_ok hq
    obtain ⟨hsound, hpaired, -⟩ := h.ends hp hs hq
    exact ⟨hsound, hpaired⟩

/-- What is kept by every callback that succeeds is kept by a list of them. -/
theorem forM_ok {α : Type} {I : Pass → Prop} {l : List α} {f : α → PassM Unit}
    (hq : l.forM f p = .ok () q) (start : I p)
    (step : ∀ a r r', f a r = .ok () r' → I r → I r') : I q := by
  induction l generalizing p with
  | nil =>
    cases hq
    exact start
  | cons a l ih =>
    obtain ⟨_, r, hr, hq⟩ := exists_of_bind_eq_ok hq
    exact ih hq (step a p r hr start)

section

variable {engines : List Engine} {presents : List Present} {version : UInt32}
  {history : List Callback} {steps : List (Reader × Nat × Step)} {index : Nat} {s : Submit}
  {old r : Pass}

theorem told_paired (hp : told o engines presents version history old = .ok () p) :
    p.Sound ∧ p.Paired := by
  obtain ⟨_, r, hr, hp⟩ := exists_of_bind_eq_ok hp
  obtain ⟨_, r', hr', hp⟩ := exists_of_bind_eq_ok hp
  cases hr'
  have hstarted := ((start_succeeds engines).of_ok hr).1.presents presents version
  exact forM_ok (I := fun r => r.Sound ∧ r.Paired) hp ⟨hstarted.sound, hstarted.paired⟩
    fun _ _ _ hx ⟨hr, hpaired⟩ => hpaired.callback hr hx

theorem Paired.filled (h : p.Paired) (hp : p.Sound) (hq : filled o index s steps p = .ok () q) :
    q.Sound ∧ q.Paired ∧ q.submit = some p.nodes.size ∧
      q.nodes[p.nodes.size]? = some (submitNode index s) := by
  obtain ⟨_, r, hbegin, hsteps⟩ := exists_of_bind_eq_ok hq
  obtain ⟨hsound, hpaired, hsubmit, hnodes⟩ := h.begins hp hbegin
  have hstays : r.Stays q := forM_ok (I := r.Stays) hsteps
    ⟨hsound, hpaired, rfl, [], Array.appendList_nil.symm⟩
    fun _ _ _ hx hr => hr.trans (hr.paired.step hr.sound hx)
  refine ⟨hstays.sound, hstays.paired, hstays.submit.trans hsubmit, ?_⟩
  obtain ⟨new, hnew⟩ := hstays.nodes
  rw [hnew, hnodes, Nodes.append_append_list]
  exact Nodes.getElem?_append_head

/-- A pass is started, and whatever it is told then succeeds. Then a submit begins, and some steps
follow, of walks or of none. It can end now, and then the buffers of the submit are sorted by their
places in the view of submits, and those with one place are in the order of the other view. All else
below the engines is the same in both views; only other submits that have ended are sorted, too. -/
theorem submitEnd_sorts (hp : told o engines presents version history old = .ok () p)
    (hr : filled o index s steps p = .ok () r) (last : Nat) :
    ∃ q, submitEnd last r = .ok () q ∧ q.nodes[p.nodes.size]? = some (submitNode index s) ∧
      (∀ c ∈ q.owned .engine p.nodes.size, ∃ i, q.nodes.ibIndex? c = some i) ∧
      StablySorted q.nodes.place (q.owned .engine p.nodes.size) (q.owned .submit p.nodes.size) ∧
      ∀ n k, q.nodes.kind? n = some k → k ≠ .root → k ≠ .engine →
        q.shared .submit n = q.shared .engine n ∧
          (q.owned .submit n = q.owned .engine n ∨
            k = .submit ∧ StablySorted q.nodes.place (q.owned .engine n) (q.owned .submit n)) := by
  obtain ⟨hsound, hpaired⟩ := told_paired hp
  obtain ⟨hsoundr, hpairedr, hsubmit, hnode⟩ := hpaired.filled hsound hr
  obtain ⟨_, q, hend, -⟩ := (submitEnd_succeeds hsoundr hsubmit last).exists_ok
  obtain ⟨hsoundq, hpairedq, -, hsorted, more, hmore⟩ := hpairedr.ends hsoundr hsubmit hend
  have hnodeq : q.nodes[p.nodes.size]? = some (submitNode index s) := by
    rw [hmore, Nodes.getElem?_append_old (Array.getElem?_eq_some_iff.mp hnode).1]
    exact hnode
  have hkind : q.nodes.kind? p.nodes.size = some .submit := by
    rw [Nodes.kind?, hnodeq]
    rfl
  refine ⟨q, hend, hnodeq, fun c hc => ?_, hsorted,
    fun n k hn hroot hengine => ⟨hpairedq.shared n, ?_⟩⟩
  · obtain ⟨a, b, ha, hb, howns, -⟩ := hsoundq.arranged.fits hc
    cases hkind.symm.trans ha
    have hib : b = .ib := by
      revert howns
      cases b <;> decide
    exact hpairedq.placed c (hib ▸ hb)
  · rcases hpairedq.owned n k hn hroot hengine with heq | ⟨hk, -, hsorted⟩
    · exact .inl heq
    · exact .inr ⟨hk, hsorted⟩

end

/-- Buffers that are reported out of order, with a called and a chained one among them that have
other places than their owner. -/
theorem submitEnd_sorts_unordered :
    let ib : IndirectBuffer := { va := 0, size := 1 }
    let m := Reader.flat (Words.toBytes #[Header.ofOpcode Opcode.nop 0])
    let steps : List (Reader × Nat × Step) := [
      (m, 0, .enter 2 ib .normal), (m, 7, .packet 0 0 .type7 (Header.ofOpcode Opcode.nop 0)),
      (m, 0, .enter 1 ib .call), (m, 0, .leave 1 ib), (m, 0, .enter 5 ib .chain),
      (m, 0, .leave 2 ib), (m, 0, .enter 0 ib .normal), (m, 0, .leave 0 ib),
      (m, 0, .enter 2 ib .chain), (m, 0, .leave 2 ib)]
    let s : Submit := { engine := .universal, queue := .universal, ibs := [] }
    ∃ p r q, told {} [.universal] [] 0 [] {} = .ok () p ∧ filled {} 0 s steps p = .ok () r ∧
      submitEnd 0 r = .ok () q ∧ r.owned .engine 2 = [3, 7, 8] ∧
      StablySorted q.nodes.place (q.owned .engine 2) (q.owned .submit 2) := by
  intro ib m steps s
  have hrun : Succeeds (told {} [.universal] [] 0 []) {} fun _ p => p.nodes.size = 2 ∧
      Succeeds (filled {} 0 s steps) p fun _ r => r.owned .engine 2 = [3, 7, 8] := by
    decide +kernel
  obtain ⟨_, p, hp, hsize, hfill⟩ := hrun.exists_ok
  obtain ⟨_, r, hr, hengine⟩ := hfill.exists_ok
  obtain ⟨q, hq, -, -, hsorted, -⟩ := submitEnd_sorts hp hr 0
  rw [hsize] at hsorted
  exact ⟨p, r, q, hp, hr, hq, hengine, hsorted⟩

end Pass

end CaptureForest
