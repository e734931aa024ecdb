import CaptureForest.Proofs.Walk.Coherent
import CaptureForest.Proofs.Walk.Walker

/-! # Walks come to an end

Whatever the memory holds, a walk reports a bounded number of steps (`Walk.execute_ends`). The bound
on what a position still allows is its `potential`, which every move lowers: a packet uses up words
of its buffer, a chained buffer uses up one of the links of its run, a called buffer uses up what
its packet was worth, and a listed buffer was counted with the list.

The worth of a packet is that of all it may call, with one level less inside. -/

namespace CaptureForest.Walk

variable {σ : Type} {m : Reader} {submit ibIndex : Nat} {ibs : List IndirectBuffer}
  {p q q' : Position} {t : List Step} {step : Step}

/-! ## Positions have one future each -/

/-- A step leads from a position to one other. -/
theorem Move.unique (h : Move m submit ibs p step q) (h' : Move m submit ibs p step q') :
    q = q' := by
  generalize hs : step = s at h'
  cases h with
  | list =>
    cases h' with
    | list =>
      obtain ⟨-, rfl, -⟩ := Step.enter.inj hs
      rfl
    | _ => simp at hs
  | call hr =>
    cases h' with
    | call hr' =>
      cases hr.symm.trans hr'
      obtain ⟨-, rfl, -⟩ := Step.enter.inj hs
      rfl
    | _ => simp at hs
  | chain hr =>
    cases h' with
    | chain hr' =>
      cases hr.symm.trans hr'
      obtain ⟨-, rfl, -⟩ := Step.enter.inj hs
      rfl
    | _ => simp at hs
  | packet hr =>
    cases h' with
    | packet hr' =>
      cases hr.symm.trans hr'
      obtain ⟨-, -, -, rfl⟩ := Step.packet.inj hs
      rfl
    | _ => simp at hs
  | leave hr =>
    cases h' with
    | leave hr' =>
      cases hr.symm.trans hr'
      rfl
    | _ => simp at hs

theorem Path.unique (h : Path m submit ibs p t q) (h' : Path m submit ibs p t q') : q = q' := by
  induction h generalizing q' with
  | nil => exact h'.of_nil.symm
  | snoc _ move ih =>
    obtain ⟨r, h', hlast⟩ := h'.split
    obtain ⟨_, move', hnil⟩ := hlast.head
    cases ih h'
    rw [hnil.of_nil]
    exact move.unique move'

/-! ## What bounds a position -/

/-- The most words of a buffer that a packet leads to. -/
def maxTarget : Nat := Layouts.bufferSizeMask.toNat

theorem target_size_le {constantEngine : Bool} {va : Nat} {kind : PacketKind} {header : UInt32}
    {ib : IndirectBuffer} {ibKind : IbKind}
    (h : target m submit constantEngine va kind header = .ok (some (ib, ibKind))) :
    ib.size ≤ maxTarget := by
  obtain ⟨-, h⟩ := target_eq_some h
  unfold IndirectBuffer.ofPacket at h
  split at h
  · cases h
  · split at h
    · cases hw : m.words submit (va + 4) targetWords with
      | error e => rw [hw] at h; cases h
      | ok words =>
        rw [hw] at h
        cases h
        exact Nat.le_trans (Nat.le_of_eq (UInt32.toNat_and ..)) Nat.and_le_right
    · cases h

/-- The limits that a walk keeps at each of its positions. -/
structure Position.Bounded (p : Position) : Prop where
  depth : p.runs.length ≤ maxDepth + 1
  /-- A buffer that lies too deep shows no packets. -/
  idle : maxDepth < p.runs.length → p.pending = .ok none
  links : ∀ r ∈ p.runs, r.earlier.length ≤ maxChain
  target : ∀ {ib kind}, p.pending = .ok (some (ib, kind)) → ib.size ≤ maxTarget

theorem Move.bounded (h : Move m submit ibs p step q) (hp : p.Bounded) (hc : p.Coherent ibs) :
    q.Bounded := by
  cases h with
  | list hr =>
    exact {
      depth := by simp [Position.openRun, hr]
      idle := fun _ => rfl
      links := by simp [Position.openRun, hr]
      target := fun hpend => by cases hpend }
  | @call r rs ib hr hpend =>
    have hdepth := (hc.leads hpend).1
    exact {
      depth := by simpa [Position.openRun] using hdepth
      idle := fun _ => rfl
      links := by simpa [Position.openRun] using hp.links
      target := fun hpend => by cases hpend }
  | @chain r rs ib hr hpend hlinks =>
    have hdepth := hp.depth
    rw [hr] at hdepth
    exact {
      depth := hdepth
      idle := fun _ => rfl
      links := fun o ho => by
        rcases List.mem_cons.mp ho with rfl | ho
        · exact hlinks
        · exact hp.links o (by rw [hr]; exact List.mem_cons_of_mem _ ho)
      target := fun hpend => by cases hpend }
  | @packet r rs header hr _ hdepth =>
    have hlength : (r.pass (.ofHeader header) header :: rs).length = p.runs.length := by
      rw [hr]
      rfl
    exact {
      depth := Nat.le_trans (Nat.le_of_eq hlength) hp.depth
      idle := fun hdeep => absurd (hlength ▸ hdeep) (Nat.not_lt.mpr hdepth)
      links := fun o ho => by
        rcases List.mem_cons.mp ho with rfl | ho
        · exact hp.links r (by rw [hr]; exact List.mem_cons_self)
        · exact hp.links o (by rw [hr]; exact List.mem_cons_of_mem _ ho)
      target := target_size_le }
  | @leave r rs hr hpend hdepth =>
    have hle : rs.length ≤ maxDepth := by
      rw [hr, List.length_cons] at hdepth
      omega
    exact {
      depth := Nat.le_succ_of_le hle
      idle := fun _ => hpend
      links := fun o ho => hp.links o (by rw [hr]; exact List.mem_cons_of_mem _ ho)
      target := hp.target }

theorem Path.bounded (h : Path m submit ibs {} t p) : p.Bounded := by
  induction h with
  | nil =>
    exact ⟨Nat.zero_le _, fun _ => rfl, fun _ hr => absurd hr List.not_mem_nil,
      fun hpend => by cases hpend⟩
  | snoc h move ih => exact move.bounded ih h.coherent

/-! ## Potentials -/

/-- The most steps of a run, from the packets of a buffer of `size` words on, if a packet is worth
`worth` steps. -/
def runBound (worth size : Nat) : Nat :=
  size * worth + maxChain * (1 + maxTarget * worth) + 1

/-- The most steps that come with a packet: its own, that of the buffer that it calls, and those of
the run of that buffer, if `levels` more runs may be open inside of the packet's. -/
def packetBound : (levels : Nat) → Nat
  | 0 => 2
  | levels + 1 => 2 + runBound (packetBound levels) maxTarget

/-- The most steps of the walk of a list of buffers. -/
def stepBound : List IndirectBuffer → Nat
  | [] => 0
  | ib :: ibs => 1 + runBound (packetBound (maxDepth - 1)) ib.size + stepBound ibs

/-- The words of the innermost buffer of a run that were not passed yet. -/
def OpenRun.wordsLeft (r : OpenRun) : Nat := (r.latest.ib.stop - r.next + 3) / 4

/-- The most steps that a run still allows, with `levels` more runs inside of it. -/
def OpenRun.potential (levels : Nat) (r : OpenRun) : Nat :=
  r.wordsLeft * packetBound levels +
    (maxChain - r.earlier.length) * (1 + maxTarget * packetBound levels) + 1

/-- The most steps that open runs still allow, the innermost first. A run that lies too deep allows
none. -/
def runsPotential : List OpenRun → Nat
  | [] => 0
  | r :: rs =>
    (if rs.length < maxDepth then r.potential (maxDepth - 1 - rs.length) else 0) + runsPotential rs

/-- What is left of the worth of the last packet. -/
def pendingPotential (levels : Nat) : Except Error (Option (IndirectBuffer × IbKind)) → Nat
  | .ok (some (_, .call)) => packetBound levels - 1
  | _ => 0

/-- The most steps that a walk of the buffers `ibs` still reports from a position on. -/
def Position.potential (ibs : List IndirectBuffer) (p : Position) : Nat :=
  pendingPotential (maxDepth - p.runs.length) p.pending + runsPotential p.runs +
    stepBound (ibs.drop p.listed)

theorem two_le_packetBound (levels : Nat) : 2 ≤ packetBound levels := by
  cases levels with
  | zero => exact Nat.le_refl 2
  | succ levels => exact Nat.le_add_right 2 _

theorem runBound_mono (worth : Nat) {size size' : Nat} (h : size ≤ size') :
    runBound worth size ≤ runBound worth size' := by
  have hmul := Nat.mul_le_mul_right worth h
  unfold runBound
  omega

theorem OpenRun.wordsLeft_enter (ibIndex number : Nat) (ib : IndirectBuffer) (kind : IbKind)
    (earlier : List Visit) :
    OpenRun.wordsLeft { latest := { ibIndex, ib, kind, number }, earlier, next := ib.va } =
      ib.size := by
  simp only [OpenRun.wordsLeft, IndirectBuffer.stop, IndirectBuffer.sizeInBytes]
  omega

/-- A run that has just been opened may take all the steps that its buffer allows. -/
theorem OpenRun.potential_enter (levels ibIndex number : Nat) (ib : IndirectBuffer)
    (kind : IbKind) :
    OpenRun.potential levels { latest := { ibIndex, ib, kind, number }, next := ib.va } =
      runBound (packetBound levels) ib.size := by
  rw [OpenRun.potential, wordsLeft_enter]
  rfl

/-- A packet passes at least one word, also where its end is cut off at the largest address. -/
theorem OpenRun.wordsLeft_pass {r : OpenRun} (kind : PacketKind) (header : UInt32)
    (lt : r.next < r.latest.ib.stop) (le : r.latest.ib.stop ≤ maxAddress) :
    (r.pass kind header).wordsLeft + 1 ≤ r.wordsLeft := by
  have hlength := kind.length_pos header
  have hpass : (r.pass kind header).wordsLeft =
      (r.latest.ib.stop - nextAddress r.next kind header + 3) / 4 := rfl
  rw [hpass, OpenRun.wordsLeft, nextAddress]
  omega

theorem OpenRun.potential_pass {r : OpenRun} (levels : Nat) (kind : PacketKind) (header : UInt32)
    (lt : r.next < r.latest.ib.stop) (le : r.latest.ib.stop ≤ maxAddress) :
    (r.pass kind header).potential levels + packetBound levels ≤ r.potential levels := by
  have hmul := Nat.mul_le_mul_right (packetBound levels) (wordsLeft_pass kind header lt le)
  rw [Nat.add_mul, Nat.one_mul] at hmul
  have hlinks : (r.pass kind header).earlier = r.earlier := rfl
  unfold potential
  rw [hlinks]
  omega

/-- One more link of a run pays for all packets of the buffer that is chained to it. -/
theorem OpenRun.potential_chain {r : OpenRun} {ib : IndirectBuffer} (levels number : Nat)
    (hlinks : r.earlier.length < maxChain) (hsize : ib.size ≤ maxTarget) :
    OpenRun.potential levels
        { latest := { ibIndex := r.latest.ibIndex, ib, kind := .chain, number }
          earlier := r.latest :: r.earlier
          next := ib.va } + 1 ≤
      r.potential levels := by
  have hmul := Nat.mul_le_mul_right (packetBound levels) hsize
  obtain ⟨links, hleft⟩ := Nat.exists_eq_add_of_lt hlinks
  have hbefore : maxChain - r.earlier.length = links + 1 := by omega
  have hafter : maxChain - (r.latest :: r.earlier).length = links := by
    rw [List.length_cons]
    omega
  unfold potential
  rw [wordsLeft_enter, hbefore]
  dsimp only
  rw [hafter, Nat.add_mul, Nat.one_mul]
  omega

theorem stepBound_drop {k : Nat} {ib : IndirectBuffer} (h : ibs[k]? = some ib) :
    stepBound (ibs.drop k) =
      1 + runBound (packetBound (maxDepth - 1)) ib.size + stepBound (ibs.drop (k + 1)) := by
  obtain ⟨hlt, rfl⟩ := List.getElem?_eq_some_iff.mp h
  rw [List.drop_eq_getElem_cons hlt]
  rfl

theorem runsPotential_cons {r : OpenRun} {rs : List OpenRun} (h : (r :: rs).length ≤ maxDepth) :
    runsPotential (r :: rs) =
      r.potential (maxDepth - (r :: rs).length) + runsPotential rs := by
  rw [List.length_cons] at h
  rw [runsPotential, if_pos (by omega), List.length_cons, Nat.sub_sub, Nat.add_comm 1]

/-- What a packet leads to is worth less than the packet. -/
theorem pendingPotential_lt (levels : Nat)
    (pending : Except Error (Option (IndirectBuffer × IbKind))) :
    pendingPotential levels pending < packetBound levels := by
  have hle := two_le_packetBound levels
  unfold pendingPotential
  split <;> omega

/-- Every move uses up some of the steps that a position allows. -/
theorem Move.potential_lt (h : Move m submit ibs p step q) (hp : p.Bounded) (hc : p.Coherent ibs) :
    q.potential ibs < p.potential ibs := by
  cases h with
  | @list ib hr hpend hib =>
    have hopen := OpenRun.potential_enter (maxDepth - 1) p.listed p.entered ib .normal
    have hlist := stepBound_drop hib
    simp only [Position.potential, Position.openRun, hr, hpend, hlist, pendingPotential,
      runsPotential]
    rw [if_pos (by decide)]
    simp only [List.length_nil, Nat.sub_zero, hopen]
    omega
  | @call r rs ib hr hpend =>
    have hdepth := (hc.leads hpend).1
    have hsize := hp.target hpend
    simp only [Position.potential, Position.openRun, hpend, pendingPotential]
    by_cases hlt : p.runs.length < maxDepth
    · -- The called run takes what its packet was worth, with one level less inside.
      obtain ⟨levels, hlevels⟩ := Nat.exists_eq_add_of_lt hlt
      have hopen := OpenRun.potential_enter levels r.latest.ibIndex p.entered ib .call
      have hmono := runBound_mono (packetBound levels) hsize
      have hbefore : maxDepth - p.runs.length = levels + 1 := by omega
      rw [runsPotential_cons (by rw [List.length_cons]; omega), hbefore, List.length_cons,
        show maxDepth - (p.runs.length + 1) = levels by omega, hopen, packetBound]
      omega
    · -- A run that lies too deep allows no steps.
      have hbefore : maxDepth - p.runs.length = 0 := by omega
      rw [runsPotential, if_neg hlt, hbefore, packetBound]
      omega
  | @chain r rs ib hr hpend hlinks =>
    have hdepth := (hc.leads hpend).1
    have hchain := OpenRun.potential_chain (maxDepth - (rs.length + 1)) p.entered hlinks
      (hp.target hpend)
    rw [hr, List.length_cons] at hdepth
    simp only [Position.potential, Position.extendRun, hr, hpend, pendingPotential]
    rw [runsPotential_cons (by simpa using hdepth), runsPotential_cons (by simpa using hdepth)]
    simp only [List.length_cons]
    omega
  | @packet r rs header hr hpend hdepth hskip hstop hlt =>
    rw [hr, List.length_cons] at hdepth
    have hpass := OpenRun.potential_pass (maxDepth - (rs.length + 1))
      (.ofHeader header) header hlt hstop
    have hworth := pendingPotential_lt (maxDepth - (rs.length + 1))
      (target m submit r.latest.ib.constantEngine r.next (.ofHeader header) header)
    simp only [Position.potential, hr, hpend]
    rw [runsPotential_cons (by simpa using hdepth), runsPotential_cons (by simpa using hdepth)]
    simp only [List.length_cons]
    omega
  | @leave r rs hr hpend hdepth =>
    rw [hr] at hdepth
    simp only [Position.potential, hr, hpend, pendingPotential]
    rw [runsPotential_cons hdepth, OpenRun.potential]
    omega

/-- The steps that a walk has reported and those that it may still report are within the bound. -/
theorem Path.length_add_potential_le (h : Path m submit ibs {} t p) :
    t.length + p.potential ibs ≤ stepBound ibs := by
  induction h with
  | nil => exact Nat.le_of_eq (by simp [Position.potential, pendingPotential, runsPotential])
  | snoc h move ih =>
    have hlt := move.potential_lt h.bounded h.coherent
    rw [List.length_append, List.length_singleton]
    omega

/-- There is no endless walk. -/
theorem not_endless (m : Reader) (submit : Nat) (ibs : List IndirectBuffer) :
    ¬∃ p : Nat → Position, p 0 = {} ∧ ∀ n, ∃ step, Move m submit ibs (p n) step (p (n + 1)) := by
  rintro ⟨p, hstart, hmoves⟩
  have hpath (n : Nat) : ∃ t, t.length = n ∧ Path m submit ibs {} t (p n) := by
    induction n with
    | zero => exact ⟨[], rfl, hstart ▸ .nil⟩
    | succ n ih =>
      obtain ⟨t, hlength, hpath⟩ := ih
      obtain ⟨step, move⟩ := hmoves n
      exact ⟨t ++ [step], by rw [List.length_append, hlength]; rfl, hpath.snoc move⟩
  obtain ⟨t, hlength, hpath⟩ := hpath (stepBound ibs + 1)
  have hle := hpath.length_add_potential_le
  omega

/-! ## Refusals -/

/-- A position that shows that the walk goes no further, and why. -/
inductive Position.Refuses (p : Position) : Error → Prop
  /-- More than `maxDepth` runs are open. -/
  | depth {r : OpenRun} {rs : List OpenRun} :
    p.runs = r :: rs → maxDepth ≤ rs.length →
    p.Refuses (.violation (.nestingTooDeep r.latest.ib.va))
  /-- The last packet chains into one more buffer than a run may have. -/
  | chain {r : OpenRun} {rs : List OpenRun} {ib : IndirectBuffer} :
    p.runs = r :: rs → maxChain ≤ r.earlier.length → p.pending = .ok (some (ib, .chain)) →
    p.Refuses (.violation (.chainTooLong ib.va))

theorem Position.Refuses.not_move {e : Error} (h : p.Refuses e) (hp : p.Bounded) :
    ¬Move m submit ibs p step q := by
  intro move
  cases h with
  | depth hr hdeep =>
    have hidle := hp.idle (by rw [hr, List.length_cons]; omega)
    cases move with
    | list hr' => cases hr.symm.trans hr'
    | call _ hpend | chain _ hpend => cases hidle.symm.trans hpend
    | packet _ _ hdepth | leave _ _ hdepth =>
      rw [hr, List.length_cons] at hdepth
      omega
  | chain hr hlong hpend =>
    cases move with
    | list _ hpend' | call _ hpend' | packet _ hpend' | leave _ hpend' =>
      cases hpend.symm.trans hpend'
    | chain hr' _ hlinks =>
      cases hr.symm.trans hr'
      omega

theorem Stops.eq_of_refuses {e e' : Error} (h : Stops m submit p e) (hp : p.Bounded)
    (hr : p.Refuses e') : e = e' := by
  cases hr with
  | depth hr hdeep =>
    have hidle := hp.idle (by rw [hr, List.length_cons]; omega)
    cases h with
    | header hr' _ hdepth | range hr' _ hdepth =>
      cases hr.symm.trans hr'
      omega
    | target hpend | chain _ _ hpend => cases hidle.symm.trans hpend
    | depth hr' => cases hr.symm.trans hr'; rfl
  | chain hr hlong hpend =>
    cases h with
    | header _ hpend' | range _ hpend' | target hpend' => cases hpend.symm.trans hpend'
    | depth hr' hdepth =>
      have hidle := hp.idle (by rw [hr', List.length_cons]; omega)
      cases hpend.symm.trans hidle
    | chain _ _ hpend' => cases hpend.symm.trans hpend'; rfl

/-- A walk that stops before its end does so because it refuses to go on, or for want of memory. -/
theorem Stops.refuses_or_misses {e : Error} (h : Stops m submit p e)
    (hpath : Path m submit ibs {} t p) : p.Refuses e ∨ m.Misses submit e := by
  cases h with
  | header _ _ _ _ _ hw => exact .inr (Reader.misses_of_word hw)
  | target hpend => exact .inr (hpath.pending_error hpend)
  | range _ _ _ _ hstop => exact .inr ⟨_, _, rfl, .inr hstop⟩
  | depth hr hdepth => exact .inl (.depth hr (Nat.le_of_eq hdepth.symm))
  | chain hr hlinks hpend => exact .inl (.chain hr (Nat.le_of_eq hlinks.symm) hpend)

/-- A walk ends at a position that refuses to go on, with the error that says why. -/
theorem Position.Refuses.ends {e : Error} {rest : List Step} (h : p.Refuses e)
    (ht : steps m submit ibs = t ++ rest) (hpath : Path m submit ibs {} t p) :
    rest = [] ∧ outcome m submit ibs = .error e := by
  obtain ⟨final, hfinal, hend⟩ := path_steps m submit ibs
  rw [ht] at hfinal
  obtain ⟨p', hpath', hrest⟩ := hfinal.split
  obtain rfl := hpath.unique hpath'
  cases rest with
  | cons step rest =>
    obtain ⟨_, move, -⟩ := hrest.head
    exact absurd move (h.not_move hpath.bounded)
  | nil =>
    obtain rfl := hrest.of_nil
    refine ⟨rfl, ?_⟩
    cases hout : outcome m submit ibs with
    | error e' =>
      rw [hout] at hend
      rw [hend.eq_of_refuses hpath.bounded h]
    | ok _ =>
      rw [hout] at hend
      cases h with
      | depth hr | chain hr => cases hr.symm.trans hend.1

/-! ## The end of a walk -/

/-- Whatever the memory, the buffers and the receiver are, a walker issues a bounded number of
calls, which are steps of a walk that has no endless continuation; its `fuel` does not run out. At
every moment the limits on open and chained buffers are kept, and the walk ends where they would be
exceeded. Each packet moves the address up from inside of its buffer. -/
theorem execute_ends (w : Walk σ) (ibs : List IndirectBuffer) (c : Walker σ) :
    (w.calls ibs c).length ≤ stepBound ibs ∧
    Called w (outcome w.memory w.submit ibs) (steps w.memory w.submit ibs) (w.calls ibs c)
      (answer (w.execute ibs c)) ∧
    (∀ fuel ibIndex ib s, maxDepth < fuel →
      answer (w.level ibIndex fuel ib ⟨0, s⟩) = answer (w.buffer ibIndex maxDepth ib s) ∧
        (leftover (w.level ibIndex fuel ib ⟨0, s⟩)).receiver =
          leftover (w.buffer ibIndex maxDepth ib s)) ∧
    (¬∃ p : Nat → Position, p 0 = {} ∧
      ∀ n, ∃ step, Move w.memory w.submit ibs (p n) step (p (n + 1))) ∧
    (∃ p, Path w.memory w.submit ibs {} (steps w.memory w.submit ibs) p ∧
      match outcome w.memory w.submit ibs with
      | .ok _ => p.runs = [] ∧ p.pending = .ok none ∧ p.listed = ibs.length
      | .error e => p.Refuses e ∨ w.memory.Misses w.submit e) ∧
    ∀ t rest p, steps w.memory w.submit ibs = t ++ rest → Path w.memory w.submit ibs {} t p →
      p.Bounded ∧
      (∀ e, p.Refuses e → rest = [] ∧ outcome w.memory w.submit ibs = .error e) ∧
      ∀ ibIndex va kind header q,
        Move w.memory w.submit ibs p (.packet ibIndex va kind header) q →
        ∃ r rs, p.runs = r :: rs ∧ q.runs = { r with next := nextAddress va kind header } :: rs ∧
          r.next = va ∧ va < r.latest.ib.stop ∧ va < nextAddress va kind header := by
  have hcalled := w.execute_called ibs c
  obtain ⟨final, hfinal, hend⟩ := path_steps w.memory w.submit ibs
  refine ⟨?_, hcalled, fun fuel ibIndex ib s hfuel =>
    (level_counts (Nat.zero_add _) hfuel ib).receives s, not_endless _ _ _, ⟨final, hfinal, ?_⟩,
    fun t rest p ht hpath => ⟨hpath.bounded, fun e hrefuses => hrefuses.ends ht hpath, ?_⟩⟩
  · have hcalls := hcalled.isPrefix.length_le
    have hsteps := hfinal.length_add_potential_le
    rw [List.length_map] at hcalls
    omega
  · cases hout : outcome w.memory w.submit ibs with
    | ok _ =>
      rw [hout] at hend
      exact hend
    | error e =>
      rw [hout] at hend
      exact hend.refuses_or_misses hfinal
  · intro ibIndex va kind header q move
    cases move with
    | packet hr _ _ _ hstop hlt =>
      exact ⟨_, _, hr, rfl, rfl, hlt, lt_nextAddress _ _ hlt hstop⟩

/-- A buffer that calls itself. The ninth call is refused. -/
theorem execute_ends_self :
    let memory := Reader.flat (Words.toBytes #[Header.ofOpcode Opcode.callPfe 3, 0, 0, 4])
    let ib : IndirectBuffer := { va := 0, size := 4 }
    let w := recorder memory 0
    (w.calls [ib] ⟨3, []⟩).length = 17 ∧ 17 ≤ stepBound [ib] ∧
      answer (w.level 0 20 ib ⟨0, []⟩) = answer (w.buffer 0 maxDepth ib []) ∧
      (∃ p, Path memory 0 [ib] {} (steps memory 0 [ib]) p ∧
        p.Refuses (.violation (.nestingTooDeep 0)) ∧ p.Bounded ∧
        outcome memory 0 [ib] = .error (.violation (.nestingTooDeep 0))) ∧
      ∃ p q r rs, Path memory 0 [ib] {} [.enter 0 ib .normal] p ∧
        Move memory 0 [ib] p (.packet 0 0 .type7 (Header.ofOpcode Opcode.callPfe 3)) q ∧
        p.runs = r :: rs ∧ q.runs = { r with next := 16 } :: rs ∧ 0 < r.latest.ib.stop := by
  intro memory ib w
  have hlength : (w.calls [ib] ⟨3, []⟩).length = 17 := by decide +kernel
  have hrun : Leads (w.run [ib]) [] (fun _ _ => False)
      fun e _ => e = .violation (.nestingTooDeep 0) := by
    decide +kernel
  have hout : outcome memory 0 [ib] = .error (.violation (.nestingTooDeep 0)) := by
    unfold outcome
    cases hr : (recorder memory 0).run [ib] [] with
    | ok _ _ => exact (hrun.of_ok hr).elim
    | error e _ =>
      have he := hrun.of_error hr
      exact congrArg Except.error he
  have hsteps : steps memory 0 [ib] = [.enter 0 ib .normal] ++
      .packet 0 0 .type7 (Header.ofOpcode Opcode.callPfe 3) :: (steps memory 0 [ib]).drop 2 := by
    decide +kernel
  obtain ⟨hbound, -, hfuel, -, ⟨final, hfinal, hend⟩, hmoments⟩ := execute_ends w [ib] ⟨3, []⟩
  have houtw : outcome w.memory w.submit [ib] = .error (.violation (.nestingTooDeep 0)) := hout
  rw [houtw] at hend
  have hrefuses : final.Refuses (.violation (.nestingTooDeep 0)) :=
    hend.resolve_right fun ⟨_, _, he, _⟩ => nomatch he
  obtain ⟨hbounded, hends, -⟩ := hmoments _ [] final (List.append_nil _).symm hfinal
  rw [hlength] at hbound
  refine ⟨hlength, hbound, (hfuel 20 0 ib [] (by decide)).1,
    ⟨final, hfinal, hrefuses, hbounded, (hends _ hrefuses).2⟩, ?_⟩
  have hpath : Path memory 0 [ib] {} _ final := hsteps ▸ hfinal
  obtain ⟨p, hp, hrest⟩ := hpath.split
  obtain ⟨q, move, -⟩ := hrest.head
  obtain ⟨-, -, hmove⟩ := hmoments _ _ p hsteps hp
  obtain ⟨r, rs, hr, hq, -, hstop, -⟩ := hmove _ _ _ _ q move
  exact ⟨p, q, r, rs, hp, move, hr, hq, hstop⟩

end CaptureForest.Walk
