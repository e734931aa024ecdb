import CaptureForest.Proofs.Walk.Position
import CaptureForest.Memory.Flat

/-! # Walks are well nested

`Walk.RunSteps` and `Walk.ListSteps` say what a walk reports that comes to its end, as a grammar of
brackets: a listed or called buffer is entered and left, with everything that it calls in between,
and a buffer that is chained to goes on with the same bracket. The main statement is
`Walk.run_wellNested`. -/

namespace CaptureForest.Walk

/-- What a walk reports from the packet at `va` of the buffer `ib` on until the run of `ib` ends.
At most `links` further buffers are chained to in the run, and at most `levels` runs are open
inside of it. -/
inductive RunSteps (m : Reader) (submit ibIndex : Nat) :
    (levels links : Nat) → (ib : IndirectBuffer) → (va : Nat) → List Step → Prop
  /-- The buffer is skipped or at its end. The run ends with this buffer. -/
  | leave {levels links : Nat} {ib : IndirectBuffer} {va : Nat} :
    ib.skip = true ∨ ib.stop ≤ va → RunSteps m submit ibIndex levels links ib va [.leave ibIndex ib]
  /-- A packet that leads nowhere, and what follows behind it. -/
  | packet {levels links : Nat} {ib : IndirectBuffer} {va : Nat} {header : UInt32}
      {kind : PacketKind} {rest : List Step} :
    ib.skip = false → va < ib.stop → m.word submit va = .ok header → kind = .ofHeader header →
    target m submit ib.constantEngine va kind header = .ok none →
    RunSteps m submit ibIndex levels links ib (va + 4 * kind.length header) rest →
    RunSteps m submit ibIndex levels links ib va (.packet ibIndex va kind header :: rest)
  /-- A packet that calls a buffer, the run of that buffer, and what follows behind the packet. -/
  | call {levels links : Nat} {ib callee : IndirectBuffer} {va : Nat} {header : UInt32}
      {kind : PacketKind} {body rest : List Step} :
    ib.skip = false → va < ib.stop → m.word submit va = .ok header → kind = .ofHeader header →
    target m submit ib.constantEngine va kind header = .ok (some (callee, .call)) →
    RunSteps m submit ibIndex levels maxChain callee callee.va body →
    RunSteps m submit ibIndex (levels + 1) links ib (va + 4 * kind.length header) rest →
    RunSteps m submit ibIndex (levels + 1) links ib va
      (.packet ibIndex va kind header :: .enter ibIndex callee .call :: body ++ rest)
  /-- A packet that chains into a buffer, with which the run goes on. -/
  | chain {levels links : Nat} {ib next : IndirectBuffer} {va : Nat} {header : UInt32}
      {kind : PacketKind} {rest : List Step} :
    ib.skip = false → va < ib.stop → m.word submit va = .ok header → kind = .ofHeader header →
    target m submit ib.constantEngine va kind header = .ok (some (next, .chain)) →
    RunSteps m submit ibIndex levels links next next.va rest →
    RunSteps m submit ibIndex levels (links + 1) ib va
      (.packet ibIndex va kind header :: .enter ibIndex next .chain :: rest)

/-- What a walk reports of listed buffers, the first of which has the place `ibIndex`: a bracket
for each of them, in order. -/
inductive ListSteps (m : Reader) (submit : Nat) :
    (ibIndex : Nat) → (ibs : List IndirectBuffer) → List Step → Prop
  | nil {ibIndex : Nat} : ListSteps m submit ibIndex [] []
  | cons {ibIndex : Nat} {ib : IndirectBuffer} {ibs : List IndirectBuffer} {run rest : List Step} :
    RunSteps m submit ibIndex (maxDepth - 1) maxChain ib ib.va run →
    ListSteps m submit (ibIndex + 1) ibs rest →
    ListSteps m submit ibIndex (ib :: ibs) (.enter ibIndex ib .normal :: run ++ rest)

variable {m : Reader} {submit ibIndex : Nat}

/-! ## A walk that ends is a sequence of brackets -/

theorem RunSteps.of_nextAddress {levels links va : Nat} {ib : IndirectBuffer} {kind : PacketKind}
    {header : UInt32} {t : List Step} (le : ib.stop ≤ maxAddress)
    (h : RunSteps m submit ibIndex levels links ib (nextAddress va kind header) t) :
    RunSteps m submit ibIndex levels links ib (va + 4 * kind.length header) t := by
  by_cases hva : va + 4 * kind.length header ≤ maxAddress
  · rwa [nextAddress, Nat.min_eq_left hva] at h
  · have hnext : nextAddress va kind header = maxAddress := Nat.min_eq_right (by omega)
    rw [hnext] at h
    cases h with
    | leave hend => exact .leave (hend.imp_right fun _ => by omega)
    | packet _ lt | call _ lt | chain _ lt => omega

/-- The steps `u` take a run from the packet at `va` of `ib` to its end, or into `next?`. -/
def Continues (m : Reader) (submit ibIndex levels : Nat) (ib : IndirectBuffer) (va : Nat)
    (u : List Step) : Option IndirectBuffer → Prop
  | none => ∀ links, RunSteps m submit ibIndex levels links ib va (u ++ [.leave ibIndex ib])
  | some next => ∀ links v, RunSteps m submit ibIndex levels links next next.va v →
      RunSteps m submit ibIndex levels (links + 1) ib va (u ++ .enter ibIndex next .chain :: v)

/-- What the walk of a called buffer reports: its run, with one level less inside. -/
def Bracketed (m : Reader) (submit ibIndex levels : Nat)
    (call : IndirectBuffer → EStateM Error (List Step) Unit) : Prop :=
  ∀ ib t, Leads (call ib) t (fun _ t' => ∃ inner run, levels = inner + 1 ∧ t' = t ++ run ∧
    RunSteps m submit ibIndex inner maxChain ib ib.va run) fun _ _ => True

variable {call : IndirectBuffer → EStateM Error (List Step) Unit} {levels : Nat}

/-- What a packet does to a run: `v` is what follows behind it in the same buffer. -/
theorem followPacket_continues (hcall : Bracketed m submit ibIndex levels call)
    {ib : IndirectBuffer} {va : Nat} {header : UInt32} (hskip : ib.skip = false)
    (lt : va < ib.stop) (le : ib.stop ≤ maxAddress) (hw : m.word submit va = .ok header)
    (t : List Step) :
    Leads ((recorder m submit).followPacket call ibIndex ib va (.ofHeader header) header)
      (t ++ [.packet ibIndex va (.ofHeader header) header])
      (fun next? t' => ∃ u, t' = t ++ u ∧ match next? with
        | some next => Continues m submit ibIndex levels ib va u (some next)
        | none => ∀ links v,
          RunSteps m submit ibIndex levels links ib (nextAddress va (.ofHeader header) header) v →
          RunSteps m submit ibIndex levels links ib va (u ++ v)) fun _ _ => True := by
  rw [followPacket_eq, leads_bind, leads_ofExcept]
  simp only [recorder]
  cases ht : target m submit ib.constantEngine va (.ofHeader header) header with
  | error e => trivial
  | ok next? =>
    match next? with
    | none => exact ⟨_, rfl, fun links v hv => .packet hskip lt hw rfl ht (.of_nextAddress le hv)⟩
    | some (next, .chain) => exact ⟨_, rfl, fun links v hv => .chain hskip lt hw rfl ht hv⟩
    | some (callee, .call) =>
      simp only [leads_bind, leads_modify, leads_pure]
      refine (hcall callee _).imp ?_
      rintro _ t' ⟨inner, run, rfl, rfl, hrun⟩
      refine ⟨.packet ibIndex va (.ofHeader header) header :: .enter ibIndex callee .call :: run,
        by simp, fun links v hv => ?_⟩
      exact .call hskip lt hw rfl ht hrun (.of_nextAddress le hv)
    | some (next, .normal) => exact absurd (target_eq_some ht).1 (by simp)

theorem packets_continues (hcall : Bracketed m submit ibIndex levels call) {ib : IndirectBuffer}
    {stop : Nat} (hstop : ib.stop = stop) (le : stop ≤ maxAddress) (hskip : ib.skip = false)
    (va : Nat) (t : List Step) :
    Leads ((recorder m submit).packets call ibIndex ib stop le va) t
      (fun next? t' => ∃ u, t' = t ++ u ∧ Continues m submit ibIndex levels ib va u next?)
      fun _ _ => True := by
  subst hstop
  induction va using WellFounded.induction (measure fun va => ib.stop - va).wf generalizing t with
  | _ va ih =>
    unfold packets
    split
    · rename_i lt
      simp only [leads_bind, leads_ofExcept]
      cases hw : m.word submit va with
      | error e => simp only [recorder, hw]
      | ok header =>
        simp only [recorder, hw, leads_modify]
        refine (followPacket_continues hcall hskip lt le hw t).imp ?_
        rintro next? t' ⟨u, rfl, hu⟩
        cases next? with
        | some next => exact ⟨u, rfl, hu⟩
        | none =>
          have hlt := lt_nextAddress (PacketKind.ofHeader header) header lt le
          refine (ih _ (show ib.stop - _ < ib.stop - va by omega) _).imp ?_
          rintro next? t' ⟨v, rfl, hv⟩
          refine ⟨u ++ v, List.append_assoc .., ?_⟩
          cases next? with
          | none => exact fun links => by rw [List.append_assoc]; exact hu _ _ (hv links)
          | some next =>
            exact fun links v' h => by rw [List.append_assoc]; exact hu _ _ (hv links v' h)
    · rename_i nlt
      exact ⟨[], (List.append_nil t).symm, fun links => .leave (.inr (by omega))⟩

theorem content_continues (hcall : Bracketed m submit ibIndex levels call) (ib : IndirectBuffer)
    (t : List Step) :
    Leads ((recorder m submit).content call ibIndex ib) t
      (fun next? t' => ∃ u, t' = t ++ u ∧ Continues m submit ibIndex levels ib ib.va u next?)
      fun _ _ => True := by
  unfold content
  split
  · rename_i hskip
    exact ⟨[], (List.append_nil t).symm, fun links => .leave (.inl hskip)⟩
  · rename_i hskip
    split
    · exact packets_continues hcall rfl _ (by simpa using hskip) _ _
    · trivial

theorem chain_runSteps (hcall : Bracketed m submit ibIndex levels call) (links : Nat)
    (ib : IndirectBuffer) (t : List Step) :
    Leads ((recorder m submit).chain call ibIndex links ib) t
      (fun _ t' => ∃ run, t' = t ++ run ∧
        RunSteps m submit ibIndex levels links ib ib.va run) fun _ _ => True := by
  induction links generalizing ib t with
  | zero =>
    unfold chain
    rw [leads_bind]
    refine (content_continues hcall ib t).imp ?_
    rintro next? t' ⟨u, rfl, hu⟩
    cases next? with
    | none => exact ⟨_, List.append_assoc .., hu 0⟩
    | some next => trivial
  | succ links ih =>
    unfold chain
    rw [leads_bind]
    refine (content_continues hcall ib t).imp ?_
    rintro next? t' ⟨u, rfl, hu⟩
    cases next? with
    | none => exact ⟨_, List.append_assoc .., hu (links + 1)⟩
    | some next =>
      simp only [recorder, leads_bind, leads_modify]
      refine (ih next _).imp ?_
      rintro _ t' ⟨v, rfl, hv⟩
      exact ⟨u ++ .enter ibIndex next .chain :: v, by simp, hu links v hv⟩

theorem buffer_bracketed (ibIndex levels : Nat) :
    Bracketed m submit ibIndex levels ((recorder m submit).buffer ibIndex levels) := by
  induction levels with
  | zero => exact fun _ _ => trivial
  | succ levels ih =>
    intro ib t
    refine (chain_runSteps ih maxChain ib t).imp ?_
    rintro _ t' ⟨run, rfl, hrun⟩
    exact ⟨levels, run, rfl, rfl, hrun⟩

theorem ListSteps.append {ibIndex : Nat} {ibs : List IndirectBuffer} {ib : IndirectBuffer}
    {t run : List Step} (h : ListSteps m submit ibIndex ibs t)
    (hrun : RunSteps m submit (ibIndex + ibs.length) (maxDepth - 1) maxChain ib ib.va run) :
    ListSteps m submit ibIndex (ibs ++ [ib])
      (t ++ .enter (ibIndex + ibs.length) ib .normal :: run) := by
  induction h with
  | nil => simpa using ListSteps.cons hrun .nil
  | @cons ibIndex ib' ibs run' rest hrun' _ ih =>
    have hlen : ibIndex + (ib' :: ibs).length = ibIndex + 1 + ibs.length := by
      rw [List.length_cons]; omega
    rw [hlen] at hrun ⊢
    simpa using ListSteps.cons hrun' (ih hrun)

theorem run_listSteps (m : Reader) (submit : Nat) (ibs : List IndirectBuffer) :
    Leads ((recorder m submit).run ibs) [] (fun _ t => ListSteps m submit 0 ibs t)
      fun _ _ => True := by
  refine (Leads.forM (I := fun done t => ListSteps m submit 0 (done.map Prod.fst) t) .nil ?_).imp
    fun _ t h => by rwa [List.zipIdx_map_fst] at h
  rintro done ⟨ib, ibIndex⟩ rest t hl h
  have hget : ibs.zipIdx[done.length]? = some (ib, ibIndex) := by rw [hl]; simp
  rw [List.getElem?_zipIdx] at hget
  obtain ⟨_, -, heq⟩ := Option.map_eq_some_iff.mp hget
  cases heq
  simp only [recorder, leads_bind, leads_modify]
  refine (buffer_bracketed _ maxDepth ib _).imp ?_
  rintro _ t' ⟨inner, run, hinner, rfl, hrun⟩
  have hinner : inner = maxDepth - 1 := by omega
  subst hinner
  have hlist := h.append (by rw [List.length_map]; exact hrun)
  simpa using hlist

/-! ## Open runs -/

/-- The number of open runs after a step, given their number before. -/
def openAfter (open' : Nat) : Step → Nat
  | .enter _ _ .chain | .packet .. => open'
  | .enter .. => open' + 1
  | .leave .. => open' - 1

/-- The number of listed and called buffers that are open after steps. -/
def numOpen (t : List Step) : Nat := t.foldl openAfter 0

theorem Path.numOpen_eq {ibs : List IndirectBuffer} {t : List Step} {p : Position}
    (h : Path m submit ibs {} t p) : numOpen t = p.runs.length := by
  induction h with
  | nil => rfl
  | snoc _ move ih =>
    rw [numOpen, List.foldl_append]
    change openAfter (numOpen _) _ = _
    rw [ih]
    cases move with
    | list hr | call hr | chain hr | packet hr | leave hr =>
      simp [openAfter, hr, Position.openRun, Position.extendRun]

theorem steps_listSteps {ibs : List IndirectBuffer} (h : outcome m submit ibs = .ok ()) :
    ListSteps m submit 0 ibs (steps m submit ibs) := by
  have hrun := run_listSteps m submit ibs
  unfold steps
  unfold outcome at h
  cases hr : (recorder m submit).run ibs [] with
  | ok _ t =>
    have hlist := hrun.of_ok hr
    exact hlist
  | error e t => rw [hr] at h; cases h

/-- No packet is reported outside of all buffers or too deep inside of them. -/
theorem numOpen_of_packet {ibs : List IndirectBuffer} {t rest : List Step} {va : Nat}
    {kind : PacketKind} {header : UInt32}
    (h : steps m submit ibs = t ++ .packet ibIndex va kind header :: rest) :
    0 < numOpen t ∧ numOpen t ≤ maxDepth := by
  obtain ⟨p, hp, -⟩ := path_steps m submit ibs
  rw [h] at hp
  obtain ⟨q, hq, hrest⟩ := hp.split
  obtain ⟨_, move, -⟩ := hrest.head
  rw [hq.numOpen_eq]
  cases move with
  | packet hr _ hdepth => exact ⟨by simp [hr], hdepth⟩

/-- A walk that comes to its end hands its receiver a sequence of brackets, one for each listed
buffer. No packet in it stands inside of more than `maxDepth` listed and called buffers. -/
theorem run_wellNested {σ : Type} {w : Walk σ} {ibs : List IndirectBuffer} {s s' : σ}
    (h : w.run ibs s = .ok () s') :
    ∃ t, w.run ibs = t.forM w.emit ∧ ListSteps w.memory w.submit 0 ibs t ∧
      ∀ before ibIndex va kind header after,
        t = before ++ .packet ibIndex va kind header :: after →
          0 < numOpen before ∧ numOpen before ≤ maxDepth := by
  have hout : outcome w.memory w.submit ibs = .ok () := by
    rw [run_eq_replay, replay] at h
    cases hout : outcome w.memory w.submit ibs with
    | ok _ => rfl
    | error e =>
      rw [hout] at h
      simp only [bind, EStateM.bind] at h
      cases ht : (steps w.memory w.submit ibs).forM w.emit s with
      | ok _ _ => rw [ht] at h; cases h
      | error _ _ => rw [ht] at h; cases h
  refine ⟨steps w.memory w.submit ibs, ?_, steps_listSteps hout,
    fun before ibIndex va kind header after ht => numOpen_of_packet ht⟩
  rw [run_eq_replay, replay, hout]
  exact bind_pure _

/-- A buffer that calls another, which has a single packet. -/
theorem run_wellNested_call :
    let memory := Reader.flat (Words.toBytes
      #[Header.ofOpcode Opcode.callPfe 3, 16, 0, 1, Header.ofOpcode Opcode.nop 0])
    let ibs : List IndirectBuffer := [{ va := 0, size := 4 }]
    ∃ t, (recorder memory 0).run ibs [] = .ok () t ∧ t.length = 6 ∧
      ∃ u, (recorder memory 0).run ibs = u.forM (recorder memory 0).emit ∧
        ListSteps memory 0 0 ibs u := by
  intro memory ibs
  have hrun : Succeeds ((recorder memory 0).run ibs) [] fun _ t => t.length = 6 := by
    decide +kernel
  obtain ⟨_, t, hr, hlength⟩ := hrun.exists_ok
  obtain ⟨u, hu, hlist, -⟩ := run_wellNested hr
  exact ⟨t, hr, hlength, u, hu, hlist⟩

end CaptureForest.Walk
