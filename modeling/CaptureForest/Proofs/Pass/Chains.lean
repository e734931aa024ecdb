import CaptureForest.Proofs.Pass.LockstepSubmit
import CaptureForest.Proofs.Pass.Nested
import CaptureForest.Proofs.Pass.Rests
import CaptureForest.Proofs.Pass.Scoped

/-! # Chained buffers

A chained buffer is listed below the buffer before it, or below the first one of its run, as the
options say. A pass that nests chains and one that flattens them have the same nodes
(`keepNumbers`), and `Pass.Flattens` says how their edges differ: the owner of a chained buffer is
the first buffer that is not chained on the way up in the other pass (`FirstUnchained`). Each buffer
that is entered keeps this (`Flattens.enters`), and so does everything else. -/

namespace CaptureForest

/-- On the way from `c` to its owner, that one's owner and so on, all buffers are chained up to
`n`, which is not. -/
inductive FirstUnchained (kind? : Nat → Option IbKind) (owns : Nat → Nat → Prop) :
    (c n : Nat) → Prop
  | owner {n c : Nat} {k : IbKind} :
    owns n c → kind? n = some k → k ≠ .chain → FirstUnchained kind? owns c n
  | above {n m c : Nat} :
    owns m c → kind? m = some .chain → FirstUnchained kind? owns m n →
    FirstUnchained kind? owns c n

namespace FirstUnchained

variable {kind? kind?' : Nat → Option IbKind} {owns owns' : Nat → Nat → Prop} {c n : Nat}

theorem mono (h : FirstUnchained kind? owns c n)
    (hkind : ∀ n k, kind? n = some k → kind?' n = some k)
    (howns : ∀ n c, owns n c → owns' n c) : FirstUnchained kind?' owns' c n := by
  induction h with
  | owner hc hn hk => exact .owner (howns _ _ hc) (hkind _ _ hn) hk
  | above hc hm _ ih => exact .above (howns _ _ hc) (hkind _ _ hm) ih

theorem not_chain (h : FirstUnchained kind? owns c n) : kind? n ≠ some .chain := by
  induction h with
  | owner _ hn hk =>
    rw [hn]
    exact fun heq => hk (Option.some.inj heq)
  | above _ _ _ ih => exact ih

end FirstUnchained

namespace Nodes

variable {nodes : Nodes} {new : List Node} {n : Nat} {k : IbKind}

theorem ibKind?_append (h : nodes.ibKind? n = some k) : Nodes.ibKind? (nodes ++ new) n = some k := by
  obtain ⟨aux, haux, hk⟩ := Option.bind_eq_some_iff.mp h
  rw [ibKind?, aux?_append haux]
  exact hk

theorem ibKind?_append_old (h : n < nodes.size) :
    Nodes.ibKind? (nodes ++ new) n = nodes.ibKind? n := by
  rw [ibKind?, aux?_append_old h, ibKind?]

theorem ibKind?_append_head {node : Node} : Nodes.ibKind? (nodes ++ node :: new) nodes.size =
    node.aux.ibKind? := by
  rw [ibKind?, aux?_append_head]
  rfl

end Nodes

theorem IbRun.top_cases (r : IbRun) : r.top = r.start ∨ r.top ∈ r.chained := by
  unfold top
  cases h : r.chained.back? with
  | none => exact .inl rfl
  | some n => exact .inr (Array.mem_of_back? h)

/-- The numbers stay as they are. Buffers may own others. -/
def keepNumbers (engines : List (Engine × Nat)) : Renaming where
  map := id
  inj := Function.injective_id
  root := rfl
  engines := engines
  exempt v k := v ∈ View.withBuffers && k == .ib

namespace Pass

variable {o : Options} {p p' q q' : Pass} {submit ibIndex : Nat} {ib : IndirectBuffer}
  {kind : IbKind} {engines : List (Engine × Nat)} {v : View} {n c : Nat}

/-- A node owns a buffer. -/
def OwnsBuffer (p : Pass) (v : View) (n c : Nat) : Prop :=
  p.nodes.kind? c = some .ib ∧ c ∈ p.owned v n

/-- The pass `p` nests chains where `p'` flattens them. -/
structure Flattens (p p' : Pass) : Prop where
  starts : ∀ r ∈ p.drawIbs ++ p.constantIbs, r.startsChained = false ∧
    ∃ k, p.nodes.ibKind? r.start = some k ∧ k ≠ .chain
  chains : ∀ r ∈ p.drawIbs ++ p.constantIbs, ∀ n ∈ r.chained,
    p.nodes.ibKind? n = some .chain ∧ ∀ v ∈ View.withBuffers,
      FirstUnchained p.nodes.ibKind? (p.OwnsBuffer v) n r.start
  chained : ∀ v ∈ View.withBuffers, ∀ {n c}, p'.OwnsBuffer v n c →
    p.nodes.ibKind? c = some .chain → FirstUnchained p.nodes.ibKind? (p.OwnsBuffer v) c n
  others : ∀ v ∈ View.withBuffers, ∀ {n c}, p'.OwnsBuffer v n c →
    p.nodes.ibKind? c ≠ some .chain → p.OwnsBuffer v n c
  ascending : ∀ v ∈ View.withBuffers, ∀ n, p.nodes.kind? n = some .ib →
    (p.owned v n).Pairwise (· < ·) ∧ (p'.owned v n).Pairwise (· < ·)

/-! ## Rests -/

theorem Rests.ownsBuffer_iff (h : p.Rests q) (hv : v ∈ View.withBuffers) :
    q.OwnsBuffer v n c ↔ p.OwnsBuffer v n c := by
  obtain ⟨new, hnodes, hnew⟩ := h.nodes
  constructor
  · rintro ⟨hc, hmem⟩
    have hold : p.nodes.kind? c = some .ib := Nodes.kind?_of_append hnew (hnodes ▸ hc)
    exact ⟨hold, (h.owner v hv hold).mp hmem⟩
  · rintro ⟨hc, hmem⟩
    exact ⟨h.kind? hc, (h.owner v hv hc).mpr hmem⟩

theorem Rests.ibKind? (h : p.Rests q) {k : IbKind} (hn : p.nodes.ibKind? n = some k) :
    q.nodes.ibKind? n = some k := by
  obtain ⟨new, hnodes, -⟩ := h.nodes
  rw [hnodes]
  exact Nodes.ibKind?_append hn

theorem Rests.firstUnchained (h : p.Rests q) (hv : v ∈ View.withBuffers)
    (hc : FirstUnchained p.nodes.ibKind? (p.OwnsBuffer v) c n) :
    FirstUnchained q.nodes.ibKind? (q.OwnsBuffer v) c n :=
  hc.mono (fun _ _ => h.ibKind?) fun _ _ => (h.ownsBuffer_iff hv).mpr

theorem Flattens.rests (h : p.Flattens p') (hrenames : p.Renames (keepNumbers engines) p')
    (hq : p.Rests q) (hq' : p'.Rests q') : q.Flattens q' := by
  obtain ⟨new, hnodes, hnew⟩ := hq.nodes
  have hkind {v : View} {n c : Nat} (hc : p'.OwnsBuffer v n c) :
      q.nodes.ibKind? c = p.nodes.ibKind? c := by
    have hlt := Nodes.kind?_lt ((hrenames.kind?_eq c).symm.trans hc.1)
    rw [hnodes, Nodes.ibKind?_append_old hlt]
  exact {
    starts := fun r hr => by
      obtain ⟨hstarts, k, hk, hne⟩ := h.starts r (hq.openRuns r hr)
      exact ⟨hstarts, k, hq.ibKind? hk, hne⟩
    chains := fun r hr n hn => by
      obtain ⟨hk, hfirst⟩ := h.chains r (hq.openRuns r hr) n hn
      exact ⟨hq.ibKind? hk, fun v hv => hq.firstUnchained hv (hfirst v hv)⟩
    chained := fun v hv n c hc hk => by
      rw [hq'.ownsBuffer_iff hv] at hc
      rw [hkind hc] at hk
      exact hq.firstUnchained hv (h.chained v hv hc hk)
    others := fun v hv n c hc hk => by
      rw [hq'.ownsBuffer_iff hv] at hc
      rw [hkind hc] at hk
      exact (hq.ownsBuffer_iff hv).mpr (h.others v hv hc hk)
    ascending := fun v hv n hn => by
      have hold : p.nodes.kind? n = some .ib := Nodes.kind?_of_append hnew (hnodes ▸ hn)
      have hold' : p'.nodes.kind? n = some .ib := (hrenames.kind?_eq n).trans hold
      rw [hq.owned v hv n hold, hq'.owned v hv n hold']
      exact h.ascending v hv n hold }

/-! ## Owners -/

/-- Buffers that are not chained have the same owner either way. -/
theorem ibOwner_of_ne (hkind : kind ≠ .chain) (o : Options) (p : Pass) (submit : Nat) :
    ibOwner { o with flattenChains := true } p submit kind =
      ibOwner { o with flattenChains := false } p submit kind := by
  simp [ibOwner, hkind]

/-- A chained buffer is listed below the innermost buffer, or below the first buffer of its run. -/
theorem ibOwner_chain {r : IbRun} {rs : IbStack} (hibs : p.ibs = r :: rs)
    (hstarts : r.startsChained = false) (o : Options) (submit : Nat) :
    ibOwner { o with flattenChains := false } p submit .chain = r.top ∧
      ibOwner { o with flattenChains := true } p submit .chain = r.start := by
  simp [ibOwner, hibs, IbStack.top?, IbStack.owner?, hstarts]

/-- Where the owners differ both are buffers. -/
theorem ibOwner_cases (p : Pass) (o : Options) (submit : Nat) (kind : IbKind) :
    ibOwner { o with flattenChains := true } p submit kind =
        ibOwner { o with flattenChains := false } p submit kind ∨
      ∃ r ∈ p.ibs, ibOwner { o with flattenChains := false } p submit kind = r.top ∧
        ibOwner { o with flattenChains := true } p submit kind = r.start := by
  by_cases hkind : kind = .chain
  · subst hkind
    cases hibs : p.ibs with
    | nil => exact .inl (by simp [ibOwner, hibs, IbStack.owner?])
    | cons r rs =>
      cases hstarts : r.startsChained with
      | true => exact .inl (by simp [ibOwner, hibs, IbStack.owner?, hstarts])
      | false => exact .inr ⟨r, by simp, ibOwner_chain hibs hstarts o submit⟩
  · exact .inl (ibOwner_of_ne hkind o p submit)

theorem keepNumbers_fit (h : p.Renames (keepNumbers engines) p') (hp : p.Sound) :
    OwnersFit (keepNumbers engines) { o with flattenChains := false }
      { o with flattenChains := true } p p' submit ibIndex ib kind := by
  have honEngine := h.recalls.onEngine ib.constantEngine
  unfold OwnersFit
  rw [honEngine.ibOwner]
  rcases ibOwner_cases (p.onEngine ib.constantEngine) o submit kind with
    heq | ⟨r, hr, hnested, hflat⟩
  · have hfit := h.ownersFit { o with flattenChains := false } submit ibIndex ib kind
    unfold OwnersFit at hfit
    rw [honEngine.ibOwner] at hfit
    rw [heq]
    exact hfit
  -- Both owners are buffers, and these are exempt.
  have hbuffer {m : Nat} (hm : m ∈ r.toList) :
      Nodes.kind? (p.nodes ++ [bufferNode ibIndex ib kind]) m = some .ib :=
    Nodes.kind?_append (hp.buffers r (ibs_mem (p := p.onEngine ib.constantEngine) hr) m hm)
  rw [hnested, hflat]
  refine ⟨fun {v n} hexempt => ?_, fun {v m} hm => absurd rfl (hm m)⟩
  by_cases hv : v ∈ View.withBuffers
  · have hne {m : Nat} (hm : m ∈ r.toList) : m ≠ n := by
      rintro rfl
      have := hexempt .ib (hbuffer hm)
      simp [keepNumbers, hv] at this
    have htop := hne r.top_mem
    have hstart := hne r.start_mem
    simp [Links.on_apply, hv, EdgeLog.children_cons, keepNumbers, htop, hstart]
  · simp [Links.on_apply, hv]

/-! ## Entering -/

namespace Enters

theorem ownsBuffer_iff (hq : Enters o submit ibIndex ib kind p q) (hp : p.Sound)
    (hv : v ∈ View.withBuffers) : q.OwnsBuffer v n c ↔ p.OwnsBuffer v n c ∨
      n = ibOwner o (p.onEngine ib.constantEngine) submit kind ∧ c = p.nodes.size := by
  have howned : c ∈ q.owned v n ↔ c ∈ p.owned v n ∨
      n = ibOwner o (p.onEngine ib.constantEngine) submit kind ∧ c = p.nodes.size := by
    rw [hq.adds.owned, List.mem_append, EdgeLog.mem_children, Links.on_apply, if_pos hv,
      List.mem_singleton, Prod.mk.injEq]
  constructor
  · rintro ⟨hc, hmem⟩
    refine (howned.mp hmem).imp_left fun hmem => ⟨?_, hmem⟩
    obtain ⟨_, b, -, hb, -⟩ := hp.arranged.fits hmem
    rw [hb, ← hc, hq.adds.kind? hb]
  · rintro (⟨hc, hmem⟩ | hnew)
    · exact ⟨hq.adds.kind? hc, howned.mpr (.inl hmem)⟩
    · refine ⟨?_, howned.mpr (.inr hnew)⟩
      rw [hnew.2]
      exact hq.adds.kind?_new 0

theorem ibKind? (hq : Enters o submit ibIndex ib kind p q) {k : IbKind}
    (hn : p.nodes.ibKind? n = some k) : q.nodes.ibKind? n = some k := by
  rw [hq.adds.nodes]
  exact Nodes.ibKind?_append hn

theorem ibKind?_new (hq : Enters o submit ibIndex ib kind p q) :
    q.nodes.ibKind? p.nodes.size = some kind := by
  rw [hq.adds.nodes, Nodes.ibKind?_append_head]
  rfl

theorem firstUnchained (hq : Enters o submit ibIndex ib kind p q) (hp : p.Sound)
    (hv : v ∈ View.withBuffers) (hc : FirstUnchained p.nodes.ibKind? (p.OwnsBuffer v) c n) :
    FirstUnchained q.nodes.ibKind? (q.OwnsBuffer v) c n :=
  hc.mono (fun _ _ => hq.ibKind?) fun _ _ h => (hq.ownsBuffer_iff hp hv).mpr (.inl h)

/-- The new buffer is the last child of its owner. -/
theorem ascending (hq : Enters o submit ibIndex ib kind p q) (hp : p.Sound)
    (h : (p.owned v n).Pairwise (· < ·)) : (q.owned v n).Pairwise (· < ·) := by
  rw [hq.adds.owned]
  have hnew : ∀ c ∈ (Links.on View.withBuffers
      [(ibOwner o (p.onEngine ib.constantEngine) submit kind, p.nodes.size)] v).children n,
      c = p.nodes.size := fun c hc => by
    have hmem := (Links.mem_on.mp (EdgeLog.mem_children.mp hc)).2
    exact congrArg Prod.snd (List.mem_singleton.mp hmem)
  refine List.pairwise_append.mpr ⟨h, ?_, fun a ha b hb => ?_⟩
  · rw [Links.on_apply]
    split
    · rw [EdgeLog.children_cons]
      split
      · exact List.pairwise_singleton _ _
      · exact .nil
    · exact .nil
  · obtain ⟨_, _, -, hk, -⟩ := hp.arranged.fits ha
    rw [hnew b hb]
    exact Nodes.kind?_lt hk

/-- A run is new if it begins with the buffer that is entered or goes on with it. -/
theorem stack_cases (hq : Enters o submit ibIndex ib kind p q) {r : IbRun}
    (hr : r ∈ q.drawIbs ++ q.constantIbs) : r ∈ p.drawIbs ++ p.constantIbs ∨
      kind ≠ .chain ∧ r = { start := p.nodes.size } ∨ kind = .chain ∧ ∃ r' rs, p.ibs = r' :: rs ∧
        r = { r' with chained := r'.chained.push p.nodes.size } := by
  have hstacks : q.drawIbs ++ q.constantIbs =
      ((p.onEngine ib.constantEngine).entered p.nodes.size kind).drawIbs ++
        ((p.onEngine ib.constantEngine).entered p.nodes.size kind).constantIbs :=
    (congrArg (fun c : Pass => c.drawIbs ++ c.constantIbs) hq.context :)
  rw [hstacks] at hr
  rcases mem_modifyIbs hr with hr | hr
  · exact .inl hr
  rw [hq.onEngine_ibs] at hr
  cases kind with
  | normal | call =>
    rcases List.mem_cons.mp hr with rfl | hr
    · exact .inr (.inl ⟨nofun, rfl⟩)
    · exact .inl (ibs_mem hr)
  | chain =>
    cases hibs : p.ibs with
    | nil => exact absurd hibs (hq.chained rfl)
    | cons r' rs =>
      rw [hibs] at hr
      rcases List.mem_cons.mp hr with rfl | hr
      · exact .inr (.inr ⟨rfl, r', rs, rfl, rfl⟩)
      · exact .inl (ibs_mem (hibs ▸ List.mem_cons_of_mem r' hr))

end Enters

/-- The kind of a buffer stays as it is when nodes are added. -/
theorem OwnsBuffer.ibKind?_append {new : List Node} (hc : p'.OwnsBuffer v n c)
    (h : p.Renames (keepNumbers engines) p') :
    Nodes.ibKind? (p.nodes ++ new) c = p.nodes.ibKind? c :=
  Nodes.ibKind?_append_old (Nodes.kind?_lt ((h.kind?_eq c).symm.trans hc.1))

theorem Flattens.enters (h : p.Flattens p') (hrenames : p.Renames (keepNumbers engines) p')
    (hp : p.Sound) (hp' : p'.Sound)
    (hq : Enters { o with flattenChains := false } submit ibIndex ib kind p q)
    (hq' : Enters { o with flattenChains := true } (keepNumbers engines submit) ibIndex ib kind
      p' q') : q.Flattens q' := by
  have hnew {v : View} {n c : Nat} (hv : v ∈ View.withBuffers) :
      q'.OwnsBuffer v n c ↔ p'.OwnsBuffer v n c ∨
        n = ibOwner { o with flattenChains := true } (p.onEngine ib.constantEngine) submit kind ∧
          c = p.nodes.size := by
    rw [hq'.ownsBuffer_iff hp' hv, (hrenames.recalls.onEngine ib.constantEngine).ibOwner,
      hrenames.size_eq]
    rfl
  have hkind {v : View} {n c : Nat} (hc : p'.OwnsBuffer v n c) :
      q.nodes.ibKind? c = p.nodes.ibKind? c := by
    rw [hq.adds.nodes, hc.ibKind?_append hrenames]
  -- A chained buffer climbs through its run.
  have hchain {r : IbRun} {rs : IbStack} (hkind : kind = .chain) (hr : p.ibs = r :: rs) :
      ibOwner { o with flattenChains := true } (p.onEngine ib.constantEngine) submit kind =
        r.start ∧ ∀ v ∈ View.withBuffers,
          FirstUnchained q.nodes.ibKind? (q.OwnsBuffer v) p.nodes.size r.start := by
    subst hkind
    have hmem : r ∈ p.drawIbs ++ p.constantIbs := ibs_mem (by simp [hr])
    obtain ⟨hstarts, k, hk, hne⟩ := h.starts r hmem
    obtain ⟨hnested, hflat⟩ := ibOwner_chain (hq.onEngine_ibs.trans hr) hstarts o submit
    refine ⟨hflat, fun v hv => ?_⟩
    have howns : q.OwnsBuffer v r.top p.nodes.size :=
      (hq.ownsBuffer_iff hp hv).mpr (.inr ⟨hnested.symm, rfl⟩)
    rcases r.top_cases with htop | htop
    · rw [htop] at howns
      exact .owner howns (hq.ibKind? hk) hne
    · obtain ⟨hk', hfirst⟩ := h.chains r hmem r.top htop
      exact .above howns (hq.ibKind? hk') (hq.firstUnchained hp hv (hfirst v hv))
  exact {
    starts := fun r hr => by
      rcases hq.stack_cases hr with hr | ⟨hne, rfl⟩ | ⟨-, r', rs, hr', rfl⟩
      · obtain ⟨hstarts, k, hk, hne⟩ := h.starts r hr
        exact ⟨hstarts, k, hq.ibKind? hk, hne⟩
      · exact ⟨rfl, kind, hq.ibKind?_new, hne⟩
      · obtain ⟨hstarts, k, hk, hne⟩ := h.starts r' (ibs_mem (by simp [hr']))
        exact ⟨hstarts, k, hq.ibKind? hk, hne⟩
    chains := fun r hr n hn => by
      have hold {r : IbRun} (hr : r ∈ p.drawIbs ++ p.constantIbs) (hn : n ∈ r.chained) :
          q.nodes.ibKind? n = some .chain ∧ ∀ v ∈ View.withBuffers,
            FirstUnchained q.nodes.ibKind? (q.OwnsBuffer v) n r.start := by
        obtain ⟨hk, hfirst⟩ := h.chains r hr n hn
        exact ⟨hq.ibKind? hk, fun v hv => hq.firstUnchained hp hv (hfirst v hv)⟩
      rcases hq.stack_cases hr with hr | ⟨-, rfl⟩ | ⟨hchained, r', rs, hr', rfl⟩
      · exact hold hr hn
      · exact absurd hn (Array.not_mem_empty _)
      · rcases Array.mem_push.mp hn with hn | rfl
        · exact hold (r := r') (ibs_mem (by simp [hr'])) hn
        · exact ⟨hchained ▸ hq.ibKind?_new, (hchain hchained hr').2⟩
    chained := fun v hv n c hc hk => by
      rcases (hnew hv).mp hc with hc | ⟨rfl, rfl⟩
      · rw [hkind hc] at hk
        exact hq.firstUnchained hp hv (h.chained v hv hc hk)
      · have hchained : kind = .chain := Option.some.inj (hq.ibKind?_new.symm.trans hk)
        obtain ⟨r, rs, hr⟩ := List.exists_cons_of_ne_nil (hq.chained hchained)
        obtain ⟨hflat, hfirst⟩ := hchain hchained hr
        rw [hflat]
        exact hfirst v hv
    others := fun v hv n c hc hk => by
      rw [hq.ownsBuffer_iff hp hv]
      rcases (hnew hv).mp hc with hc | ⟨rfl, rfl⟩
      · rw [hkind hc] at hk
        exact .inl (h.others v hv hc hk)
      · rw [hq.ibKind?_new] at hk
        exact .inr ⟨ibOwner_of_ne (fun heq => hk (congrArg some heq)) o _ submit, rfl⟩
    ascending := fun v hv n hn => by
      have hold : (p.owned v n).Pairwise (· < ·) ∧ (p'.owned v n).Pairwise (· < ·) := by
        rcases Nat.lt_or_ge n p.nodes.size with hlt | hge
        · rw [Nodes.kind?, hq.adds.nodes, Nodes.getElem?_append_old hlt] at hn
          exact h.ascending v hv n hn
        · have hge' : p'.nodes.size ≤ n := hrenames.size_eq ▸ hge
          rw [hp.sized.owned_eq_nil hge, hp'.sized.owned_eq_nil hge']
          exact ⟨.nil, .nil⟩
      exact ⟨hq.ascending hp hold.1, hq'.ascending hp' hold.2⟩ }

end Pass

end CaptureForest
