import CaptureForest.Proofs.Walk.Record

/-! # Positions of a walk

A `Walk.Position` says where a walk is: in which buffers, at which packets, and in which buffer the
last packet leads. `Walk.Move` says what a walk may report at a position and where it is then, and
`Walk.Path` puts moves together. `Walk.Stops` lists what can end a walk before its time.

Every walk follows a path, whether it comes to its end or not (`Walk.path_steps`): at its end all
buffers are closed, and otherwise it stops for one of the listed causes. What is true of every
path is therefore true at every moment of every walk. -/

namespace CaptureForest

namespace IndirectBuffer

/-- The address behind a buffer. -/
def stop (ib : IndirectBuffer) : Nat := ib.va + ib.sizeInBytes

end IndirectBuffer

namespace Walk

/-- A buffer that a walk has entered. -/
structure Visit where
  /-- The place of the submit's buffer that the walk descends from. -/
  ibIndex : Nat
  ib : IndirectBuffer
  kind : IbKind
  /-- The number of buffers that the walk had entered before. -/
  number : Nat

/-- A listed or called buffer that has not ended yet, and the buffers chained to it. -/
structure OpenRun where
  /-- The buffer whose packets are walked. -/
  latest : Visit
  /-- The buffers that it was chained from, the latest first. -/
  earlier : List Visit := []
  /-- The address of the next packet. -/
  next : Nat

/-- Where a walk is. -/
structure Position where
  /-- The runs that are open, the innermost first. -/
  runs : List OpenRun := []
  /-- The buffer that the last packet leads to, and how it is entered. -/
  pending : Except Error (Option (IndirectBuffer × IbKind)) := .ok none
  /-- The number of listed buffers that were entered. -/
  listed : Nat := 0
  /-- The number of buffers that were entered. -/
  entered : Nat := 0

/-- The buffer that a packet leads to, and how it is entered. -/
def target (m : Reader) (submit : Nat) (constantEngine : Bool) (va : Nat) (kind : PacketKind)
    (header : UInt32) : Except Error (Option (IndirectBuffer × IbKind)) :=
  match kind.opcode? header with
  | none => .ok none
  | some op =>
    if op == Opcode.chain then
      (IndirectBuffer.ofPacket m submit constantEngine va header).map (Option.map (·, .chain))
    else if Opcode.isCall op then
      (IndirectBuffer.ofPacket m submit constantEngine va header).map (Option.map (·, .call))
    else .ok none

/-- Behind a packet of the run. -/
def OpenRun.pass (r : OpenRun) (kind : PacketKind) (header : UInt32) : OpenRun :=
  { r with next := nextAddress r.next kind header }

namespace Position

/-- In a listed or called buffer. -/
def openRun (p : Position) (ibIndex : Nat) (ib : IndirectBuffer) (kind : IbKind) : Position :=
  { p with
    runs := { latest := { ibIndex, ib, kind, number := p.entered }, next := ib.va } :: p.runs
    pending := .ok none
    entered := p.entered + 1 }

/-- In the buffer that the run `r` is chained to, with the runs `rs` around it. -/
def extendRun (p : Position) (r : OpenRun) (rs : List OpenRun) (ib : IndirectBuffer) : Position :=
  { p with
    runs := {
      latest := { ibIndex := r.latest.ibIndex, ib, kind := .chain, number := p.entered }
      earlier := r.latest :: r.earlier
      next := ib.va } :: rs
    pending := .ok none
    entered := p.entered + 1 }

end Position

/-- What a walk of the buffers `ibs` may report at a position, and where it is then. -/
inductive Move (m : Reader) (submit : Nat) (ibs : List IndirectBuffer) :
    Position → Step → Position → Prop
  /-- The next buffer of the list is entered when the one before it has ended. -/
  | list {p : Position} {ib : IndirectBuffer} :
    p.runs = [] → p.pending = .ok none → ibs[p.listed]? = some ib →
    Move m submit ibs p (.enter p.listed ib .normal)
      { p.openRun p.listed ib .normal with listed := p.listed + 1 }
  /-- The buffer that a packet calls is entered. -/
  | call {p : Position} {r : OpenRun} {rs : List OpenRun} {ib : IndirectBuffer} :
    p.runs = r :: rs → p.pending = .ok (some (ib, .call)) →
    Move m submit ibs p (.enter r.latest.ibIndex ib .call) (p.openRun r.latest.ibIndex ib .call)
  /-- The buffer that a packet chains into is entered. -/
  | chain {p : Position} {r : OpenRun} {rs : List OpenRun} {ib : IndirectBuffer} :
    p.runs = r :: rs → p.pending = .ok (some (ib, .chain)) → r.earlier.length < maxChain →
    Move m submit ibs p (.enter r.latest.ibIndex ib .chain) (p.extendRun r rs ib)
  /-- A packet inside of the innermost buffer is executed. -/
  | packet {p : Position} {r : OpenRun} {rs : List OpenRun} {header : UInt32} :
    p.runs = r :: rs → p.pending = .ok none → p.runs.length ≤ maxDepth →
    r.latest.ib.skip = false → r.latest.ib.stop ≤ maxAddress → r.next < r.latest.ib.stop →
    m.word submit r.next = .ok header →
    Move m submit ibs p (.packet r.latest.ibIndex r.next (.ofHeader header) header)
      { p with
        runs := r.pass (.ofHeader header) header :: rs
        pending := target m submit r.latest.ib.constantEngine r.next (.ofHeader header) header }
  /-- The innermost run ends with its latest buffer. -/
  | leave {p : Position} {r : OpenRun} {rs : List OpenRun} :
    p.runs = r :: rs → p.pending = .ok none → p.runs.length ≤ maxDepth →
    r.latest.ib.skip = true ∨ r.latest.ib.stop ≤ r.next →
    Move m submit ibs p (.leave r.latest.ibIndex r.latest.ib) { p with runs := rs }

/-- The moves from a position to another, with the steps that they report. -/
inductive Path (m : Reader) (submit : Nat) (ibs : List IndirectBuffer) (p : Position) :
    List Step → Position → Prop
  | nil : Path m submit ibs p [] p
  | snoc {t : List Step} {q q' : Position} {step : Step} :
    Path m submit ibs p t q → Move m submit ibs q step q' → Path m submit ibs p (t ++ [step]) q'

/-- What ends a walk at a position although not all buffers have been walked. -/
inductive Stops (m : Reader) (submit : Nat) : Position → Error → Prop
  /-- The header of the next packet was not captured. -/
  | header {p : Position} {r : OpenRun} {rs : List OpenRun} {e : Error} :
    p.runs = r :: rs → p.pending = .ok none → rs.length < maxDepth → r.latest.ib.skip = false →
    r.next < r.latest.ib.stop → m.word submit r.next = .error e → Stops m submit p e
  /-- The address and size of the buffer that the last packet leads to cannot be read. -/
  | target {p : Position} {e : Error} : p.pending = .error e → Stops m submit p e
  /-- The innermost buffer runs past the largest address. -/
  | range {p : Position} {r : OpenRun} {rs : List OpenRun} :
    p.runs = r :: rs → p.pending = .ok none → rs.length < maxDepth → r.latest.ib.skip = false →
    maxAddress < r.latest.ib.stop →
    Stops m submit p (.memoryRead submit r.latest.ib.va r.latest.ib.sizeInBytes)
  /-- More than `maxDepth` runs are open. -/
  | depth {p : Position} {r : OpenRun} {rs : List OpenRun} :
    p.runs = r :: rs → rs.length = maxDepth →
    Stops m submit p (.violation (.nestingTooDeep r.latest.ib.va))
  /-- The innermost run has `maxChain` chained buffers, and the last packet chains into another. -/
  | chain {p : Position} {r : OpenRun} {rs : List OpenRun} {ib : IndirectBuffer} :
    p.runs = r :: rs → r.earlier.length = maxChain → p.pending = .ok (some (ib, .chain)) →
    Stops m submit p (.violation (.chainTooLong ib.va))

variable {m : Reader} {submit : Nat} {ibs : List IndirectBuffer}

namespace Path

/-- A path goes through a position at each of its moments. -/
theorem split {p r : Position} {t u : List Step} (h : Path m submit ibs p (t ++ u) r) :
    ∃ q, Path m submit ibs p t q ∧ Path m submit ibs q u r := by
  generalize hv : t ++ u = v at h
  induction h generalizing u with
  | nil =>
    obtain ⟨rfl, rfl⟩ := List.append_eq_nil_iff.mp hv
    exact ⟨p, .nil, .nil⟩
  | @snoc v q q' step h move ih =>
    rcases List.eq_nil_or_concat u with rfl | ⟨u, last, rfl⟩
    · rw [List.append_nil] at hv
      exact ⟨q', hv ▸ h.snoc move, .nil⟩
    · rw [List.concat_eq_append, ← List.append_assoc] at hv
      obtain ⟨rfl, hlast⟩ := List.append_inj' hv rfl
      obtain ⟨q₀, h₀, h₁⟩ := ih rfl
      cases hlast
      exact ⟨q₀, h₀, by rw [List.concat_eq_append]; exact h₁.snoc move⟩

theorem of_nil {p r : Position} (h : Path m submit ibs p [] r) : r = p := by
  generalize ht : ([] : List Step) = t at h
  cases h with
  | nil => rfl
  | snoc => exact absurd ht (by simp)

theorem head {p r : Position} {step : Step} {u : List Step}
    (h : Path m submit ibs p (step :: u) r) :
    ∃ q, Move m submit ibs p step q ∧ Path m submit ibs q u r := by
  obtain ⟨q, h₀, h₁⟩ := Path.split (t := [] ++ [step]) h
  generalize ht : [] ++ [step] = t at h₀
  cases h₀ with
  | nil => cases ht
  | snoc h₀ move =>
    obtain ⟨rfl, hlast⟩ := List.append_inj' ht rfl
    cases hlast
    cases h₀.of_nil
    exact ⟨q, move, h₁⟩

end Path

/-! ## Every walk follows a path -/

/-- The walk of a packet's target, by the kind of the target. -/
theorem followPacket_eq {σ : Type} (w : Walk σ) (call : IndirectBuffer → EStateM Error σ Unit)
    (ibIndex : Nat) (ib : IndirectBuffer) (va : Nat) (kind : PacketKind) (header : UInt32) :
    w.followPacket call ibIndex ib va kind header = do
      match ← MonadExcept.ofExcept (target w.memory w.submit ib.constantEngine va kind header) with
      | none => return none
      | some (next, .chain) => return some next
      | some (next, _) =>
        w.emit (.enter ibIndex next .call)
        call next
        return none := by
  unfold followPacket target
  cases kind.opcode? header with
  | none => rfl
  | some op =>
    dsimp only
    split
    · cases IndirectBuffer.ofPacket w.memory w.submit ib.constantEngine va header with
      | error e => rfl
      | ok next? => cases next? <;> rfl
    · split
      · cases IndirectBuffer.ofPacket w.memory w.submit ib.constantEngine va header with
        | error e => rfl
        | ok next? => cases next? <;> rfl
      · rfl

/-- A packet leads into the buffer that it names, by a call or a chain. -/
theorem target_eq_some {constantEngine : Bool} {va : Nat} {kind : PacketKind} {header : UInt32}
    {ib : IndirectBuffer} {ibKind : IbKind}
    (h : target m submit constantEngine va kind header = .ok (some (ib, ibKind))) :
    (ibKind = .call ∨ ibKind = .chain) ∧
      IndirectBuffer.ofPacket m submit constantEngine va header = .ok (some ib) := by
  have hmap {next?? : Except Error (Option IndirectBuffer)} {k : IbKind}
      (hk : next??.map (Option.map (·, k)) = .ok (some (ib, ibKind))) :
      ibKind = k ∧ next?? = .ok (some ib) := by
    match next?? with
    | .error e => cases hk
    | .ok none => cases hk
    | .ok (some next) => cases hk; exact ⟨rfl, rfl⟩
  unfold target at h
  split at h
  · cases h
  · split at h
    · obtain ⟨rfl, hp⟩ := hmap h
      exact ⟨.inr rfl, hp⟩
    · split at h
      · obtain ⟨rfl, hp⟩ := hmap h
        exact ⟨.inl rfl, hp⟩
      · cases h

theorem target_eq_error {constantEngine : Bool} {va : Nat} {kind : PacketKind} {header : UInt32}
    {e : Error} (h : target m submit constantEngine va kind header = .error e) :
    IndirectBuffer.ofPacket m submit constantEngine va header = .error e := by
  have hmap {next?? : Except Error (Option IndirectBuffer)} {k : IbKind}
      (hk : next??.map (Option.map (·, k)) = .error e) : next?? = .error e := by
    match next?? with
    | .error _ => cases hk; rfl
    | .ok _ => cases hk
  unfold target at h
  split at h
  · cases h
  · split at h
    · exact hmap h
    · split at h
      · exact hmap h
      · cases h

/-- The recorded steps follow a path to a position with the given open runs and listed buffers. -/
def Reaches (m : Reader) (submit : Nat) (ibs : List IndirectBuffer) (t : List Step)
    (runs : List OpenRun) (pending : Except Error (Option (IndirectBuffer × IbKind)))
    (listed : Nat) : Prop :=
  ∃ p, Path m submit ibs {} t p ∧ p.runs = runs ∧ p.pending = pending ∧ p.listed = listed

/-- The recorded steps follow a path to a position where the walk stops. -/
def Stuck (m : Reader) (submit : Nat) (ibs : List IndirectBuffer) (e : Error) (t : List Step) :
    Prop :=
  ∃ p, Path m submit ibs {} t p ∧ Stops m submit p e

/-- What the walk of a called buffer does: it closes the run that was opened for it. -/
def Returns (m : Reader) (submit : Nat) (ibs : List IndirectBuffer) (ibIndex levels : Nat)
    (call : IndirectBuffer → EStateM Error (List Step) Unit) : Prop :=
  ∀ (r : OpenRun) (rs : List OpenRun) {t listed}, r.earlier = [] → r.latest.ibIndex = ibIndex →
    r.next = r.latest.ib.va → rs.length + levels = maxDepth →
    Reaches m submit ibs t (r :: rs) (.ok none) listed →
    Leads (call r.latest.ib) t (fun _ t' => Reaches m submit ibs t' rs (.ok none) listed)
      (Stuck m submit ibs)

variable {call : IndirectBuffer → EStateM Error (List Step) Unit} {levels listed : Nat}

theorem followPacket_leads {t : List Step} {r : OpenRun} {rs : List OpenRun} {va : Nat}
    {kind : PacketKind} {header : UInt32}
    (hcall : Returns m submit ibs r.latest.ibIndex levels call)
    (depth : rs.length + 1 + levels = maxDepth)
    (h : Reaches m submit ibs t (r :: rs)
      (target m submit r.latest.ib.constantEngine va kind header) listed) :
    Leads ((recorder m submit).followPacket call r.latest.ibIndex r.latest.ib va kind header) t
      (fun next? t' => Reaches m submit ibs t' (r :: rs) (.ok (next?.map (·, .chain))) listed)
      (Stuck m submit ibs) := by
  rw [followPacket_eq, leads_bind, leads_ofExcept]
  simp only [recorder]
  obtain ⟨p, hp, hr, hpend, hl⟩ := h
  cases ht : target m submit r.latest.ib.constantEngine va kind header with
  | error e => exact ⟨p, hp, .target (hpend.trans ht)⟩
  | ok next? =>
    rw [ht] at hpend
    match next? with
    | none => exact ⟨p, hp, hr, hpend, hl⟩
    | some (next, .chain) => exact ⟨p, hp, hr, hpend, hl⟩
    | some (next, .call) =>
      simp only [leads_bind, leads_modify, leads_pure]
      have hmove : Reaches m submit ibs (t ++ [.enter r.latest.ibIndex next .call])
          ({ latest := ⟨r.latest.ibIndex, next, .call, p.entered⟩, next := next.va } :: r :: rs)
          (.ok none) listed :=
        ⟨_, hp.snoc (.call hr hpend), by rw [Position.openRun, hr], rfl, hl⟩
      exact hcall ⟨⟨r.latest.ibIndex, next, .call, p.entered⟩, [], next.va⟩ (r :: rs) rfl rfl rfl
        depth hmove
    | some (next, .normal) => exact absurd (target_eq_some ht).1 (by simp)

theorem packets_leads {rs : List OpenRun} {va : Nat} {stop : Nat} (le : stop ≤ maxAddress)
    {t : List Step} {r : OpenRun} (hstop : r.latest.ib.stop = stop)
    (hskip : r.latest.ib.skip = false)
    (hcall : Returns m submit ibs r.latest.ibIndex levels call)
    (depth : rs.length + 1 + levels = maxDepth)
    (h : Reaches m submit ibs t ({ r with next := va } :: rs) (.ok none) listed) :
    Leads ((recorder m submit).packets call r.latest.ibIndex r.latest.ib stop le va) t
      (fun next? t' => ∃ va', Reaches m submit ibs t' ({ r with next := va' } :: rs)
        (.ok (next?.map (·, .chain))) listed ∧ (next? = none → stop ≤ va'))
      (Stuck m submit ibs) := by
  induction va using WellFounded.induction (measure fun va => stop - va).wf generalizing t with
  | _ va ih =>
    unfold packets
    split
    · rename_i lt
      simp only [leads_bind, leads_ofExcept]
      obtain ⟨p, hp, hr, hpend, hl⟩ := h
      cases hw : m.word submit va with
      | error e =>
        simp only [recorder, hw]
        exact ⟨p, hp, .header hr hpend (by omega) hskip (hstop ▸ lt) hw⟩
      | ok header =>
        simp only [recorder, hw, leads_modify]
        have hdepth : p.runs.length ≤ maxDepth := by rw [hr, List.length_cons]; omega
        have hmove := hp.snoc (.packet hr hpend hdepth hskip (hstop ▸ le) (hstop ▸ lt) hw)
        let r' := OpenRun.pass { r with next := va } (.ofHeader header) header
        refine (followPacket_leads (r := r') hcall depth ⟨_, hmove, rfl, rfl, hl⟩).imp
          fun next? t' h' => ?_
        cases next? with
        | some next => exact ⟨_, h', by simp⟩
        | none =>
          refine ih _ ?_ h'
          have := lt_nextAddress (PacketKind.ofHeader header) header lt le
          show stop - _ < stop - va
          omega
    · rename_i nlt
      exact ⟨va, h, fun _ => by omega⟩

theorem content_leads {rs : List OpenRun} {t : List Step} {r : OpenRun}
    (hnext : r.next = r.latest.ib.va) (hcall : Returns m submit ibs r.latest.ibIndex levels call)
    (depth : rs.length + 1 + levels = maxDepth)
    (h : Reaches m submit ibs t (r :: rs) (.ok none) listed) :
    Leads ((recorder m submit).content call r.latest.ibIndex r.latest.ib) t
      (fun next? t' => ∃ va', Reaches m submit ibs t' ({ r with next := va' } :: rs)
        (.ok (next?.map (·, .chain))) listed ∧
          (next? = none → r.latest.ib.skip = true ∨ r.latest.ib.stop ≤ va'))
      (Stuck m submit ibs) := by
  unfold content
  split
  · rename_i hskip
    exact ⟨r.next, h, fun _ => .inl hskip⟩
  · rename_i hskip
    have hskip : r.latest.ib.skip = false := by simpa using hskip
    split
    · rename_i le
      have hr : { r with next := r.latest.ib.va } = r := by rw [← hnext]
      refine (packets_leads le rfl hskip hcall depth (hr.symm ▸ h)).imp ?_
      rintro next? t' ⟨va', h', hend⟩
      exact ⟨va', h', fun hn => .inr (hend hn)⟩
    · rename_i nle
      obtain ⟨p, hp, hr, hpend, -⟩ := h
      exact ⟨p, hp, .range hr hpend (by omega) hskip (by rw [IndirectBuffer.stop]; omega)⟩

theorem chain_leads {rs : List OpenRun} {links : Nat} {t : List Step} {r : OpenRun}
    (hnext : r.next = r.latest.ib.va) (hlinks : r.earlier.length + links = maxChain)
    (hcall : Returns m submit ibs r.latest.ibIndex levels call)
    (depth : rs.length + 1 + levels = maxDepth)
    (h : Reaches m submit ibs t (r :: rs) (.ok none) listed) :
    Leads ((recorder m submit).chain call r.latest.ibIndex links r.latest.ib) t
      (fun _ t' => Reaches m submit ibs t' rs (.ok none) listed) (Stuck m submit ibs) := by
  induction links generalizing t r with
  | zero =>
    unfold chain
    rw [leads_bind]
    refine (content_leads hnext hcall depth h).imp ?_
    rintro next? t' ⟨va', ⟨p, hp, hr, hpend, hl⟩, hend⟩
    cases next? with
    | none =>
      have hdepth : p.runs.length ≤ maxDepth := by rw [hr, List.length_cons]; omega
      exact ⟨_, hp.snoc (.leave (r := { r with next := va' }) hr hpend hdepth (hend rfl)), rfl,
        hpend, hl⟩
    | some next => exact ⟨p, hp, .chain hr hlinks hpend⟩
  | succ links ih =>
    unfold chain
    rw [leads_bind]
    refine (content_leads hnext hcall depth h).imp ?_
    rintro next? t' ⟨va', ⟨p, hp, hr, hpend, hl⟩, hend⟩
    cases next? with
    | none =>
      have hdepth : p.runs.length ≤ maxDepth := by rw [hr, List.length_cons]; omega
      exact ⟨_, hp.snoc (.leave (r := { r with next := va' }) hr hpend hdepth (hend rfl)), rfl,
        hpend, hl⟩
    | some next =>
      simp only [recorder, leads_bind, leads_modify]
      have hmove := hp.snoc (.chain hr hpend (show r.earlier.length < maxChain by omega))
      exact ih (r := ⟨⟨r.latest.ibIndex, next, .chain, p.entered⟩, r.latest :: r.earlier, next.va⟩)
        rfl (by rw [List.length_cons]; omega) hcall ⟨_, hmove, rfl, rfl, hl⟩

theorem buffer_returns (ibIndex levels : Nat) :
    Returns m submit ibs ibIndex levels ((recorder m submit).buffer ibIndex levels) := by
  induction levels with
  | zero =>
    intro r rs t listed _ _ _ depth h
    obtain ⟨p, hp, hr, -⟩ := h
    exact ⟨p, hp, .depth hr depth⟩
  | succ levels ih =>
    intro r rs t listed hearlier hindex hnext depth h
    subst hindex
    exact chain_leads hnext (by rw [hearlier]; exact Nat.zero_add _) ih (by omega) h

/-- The steps of a walk follow a path. If the walk ends well, all listed buffers were entered and
no buffer is open any more; if not, it stopped where the path leads. -/
theorem path_steps (m : Reader) (submit : Nat) (ibs : List IndirectBuffer) :
    ∃ p, Path m submit ibs {} (steps m submit ibs) p ∧
      match outcome m submit ibs with
      | .ok _ => p.runs = [] ∧ p.pending = .ok none ∧ p.listed = ibs.length
      | .error e => Stops m submit p e := by
  have h : Leads ((recorder m submit).run ibs) []
      (fun _ t => Reaches m submit ibs t [] (.ok none) ibs.length) (Stuck m submit ibs) := by
    refine (Leads.forM (I := fun done t => Reaches m submit ibs t [] (.ok none) done.length)
      ⟨{}, .nil, rfl, rfl, rfl⟩ ?_).imp fun _ t h => by simpa using h
    rintro done ⟨ib, ibIndex⟩ rest t hl ⟨p, hp, hr, hpend, hlisted⟩
    have hget : ibs.zipIdx[done.length]? = some (ib, ibIndex) := by rw [hl]; simp
    rw [List.getElem?_zipIdx] at hget
    obtain ⟨ib', hib, heq⟩ := Option.map_eq_some_iff.mp hget
    cases heq
    rw [← hlisted] at hib
    simp only [recorder, leads_bind, leads_modify, Nat.zero_add]
    have hmove := hp.snoc (.list hr hpend hib)
    rw [hlisted] at hmove
    let r : OpenRun := ⟨⟨done.length, ib, .normal, p.entered⟩, [], ib.va⟩
    refine (buffer_returns done.length maxDepth r [] rfl rfl rfl rfl
      ⟨_, hmove, by rw [Position.openRun, hr], rfl, rfl⟩).imp fun _ t' h' => ?_
    simpa using h'
  unfold steps outcome
  cases hrun : (recorder m submit).run ibs [] with
  | ok _ t =>
    obtain ⟨p, hp, hr, hpend, hl⟩ := h.of_ok hrun
    exact ⟨p, hp, hr, hpend, hl⟩
  | error e t => exact h.of_error hrun

end Walk

end CaptureForest
