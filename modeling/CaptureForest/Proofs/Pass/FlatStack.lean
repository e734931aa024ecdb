import CaptureForest.Proofs.Pass.Chains
import CaptureForest.Proofs.Pass.Reach

/-! # Flat stacks of buffers

A pass divides the open buffers into runs. A stack that has them one by one, and asks the nodes for
their kinds, does as well: where a buffer is left, chained buffers are taken from it down to the
buffer that they follow (`FlatStack.leave`), and that buffer is the one below which chained buffers
are listed when chains are flattened (`FlatStack.unchained?`).

At all moments the runs are those that the kinds of the nodes tell (`Pass.Grouped`). So the runs have
the buffers of the flat stack, step by step (`Turns.stepsFlat`). -/

namespace CaptureForest

/-! ## Stacks without runs -/

namespace FlatStack

variable (kind? : Nat → Option IbKind)

/-- Takes chained buffers from the top as long as there is another buffer below. -/
def dropChained : List Nat → List Nat
  | n :: m :: s => if kind? n = some .chain then dropChained (m :: s) else n :: m :: s
  | s => s

/-- Leaves the innermost buffer. The buffers chained to it end with it. -/
def leave (s : List Nat) : List Nat := (dropChained kind? s).tail

/-- The innermost buffer that is not chained. -/
def unchained? (s : List Nat) : Option Nat := s.find? fun n => kind? n ≠ some .chain

/-- The node below which a buffer is listed. -/
def owner (flattenChains : Bool) (submit : Nat) (s : List Nat) (kind : IbKind) : Nat :=
  let top := s.headD submit
  if flattenChains && kind == .chain then (unchained? kind? s).getD top else top

variable {kind?} {n : Nat} {chained s : List Nat}

theorem dropChained_of_ne (h : kind? n ≠ some .chain) : dropChained kind? (n :: s) = n :: s := by
  cases s with
  | nil => rfl
  | cons m s => rw [dropChained, if_neg h]

theorem dropChained_append (h : ∀ n ∈ chained, kind? n = some .chain) (hs : s ≠ []) :
    dropChained kind? (chained ++ s) = dropChained kind? s := by
  induction chained with
  | nil => rfl
  | cons n chained ih =>
    obtain ⟨m, below, hbelow⟩ : ∃ m below, chained ++ s = m :: below :=
      List.exists_cons_of_ne_nil (List.append_ne_nil_of_right_ne_nil _ hs)
    rw [List.cons_append, hbelow, dropChained, if_pos (h n List.mem_cons_self), ← hbelow]
    exact ih fun m hm => h m (List.mem_cons_of_mem n hm)

theorem unchained?_append (h : ∀ n ∈ chained, kind? n = some .chain) :
    unchained? kind? (chained ++ s) = unchained? kind? s := by
  have hnone : chained.find? (fun n => kind? n ≠ some .chain) = none :=
    List.find?_eq_none.mpr fun n hn => by simp [h n hn]
  rw [unchained?, List.find?_append, hnone, Option.none_or, unchained?]

end FlatStack

/-! ## Runs -/

namespace IbStack

variable {kind? kind?' : Nat → Option IbKind} {s : IbStack} {node : Nat} {kind : IbKind}

/-- What a stack of runs is asked for, its buffers and their kinds tell. -/
structure Flat (kind? : Nat → Option IbKind) (s : IbStack) : Prop where
  top : s.top? = s.nodes.head?
  depth : s.depth = s.nodes.length
  owner : s.owner? = FlatStack.unchained? kind? s.nodes
  leave : nodes s.tail = FlatStack.leave kind? s.nodes

/-- The runs of a stack are those that the kinds of its buffers tell: a chained buffer goes on with
the run before it. Only where no run is open does it begin one. -/
inductive Grouped (kind? : Nat → Option IbKind) : IbStack → Prop
  | nil : Grouped kind? []
  | outermost {r : IbRun} :
    r.startsChained → (∀ n ∈ r.toList, kind? n = some .chain) → Grouped kind? [r]
  | cons {r : IbRun} {s : IbStack} {k : IbKind} :
    r.startsChained = false → kind? r.start = some k → k ≠ .chain →
    (∀ n ∈ r.chained, kind? n = some .chain) → Grouped kind? s → Grouped kind? (r :: s)

theorem top?_eq (s : IbStack) : s.top? = s.nodes.head? := by
  cases s with
  | nil => rfl
  | cons r s =>
    obtain ⟨below, hbelow⟩ := r.toList_eq
    simp [top?, nodes, hbelow]

theorem nodes_cons {r : IbRun} :
    nodes (r :: s) = r.chained.toList.reverse ++ r.start :: s.nodes := by
  simp [nodes, IbRun.toList]

theorem depth_eq_length (s : IbStack) : s.depth = s.nodes.length := by
  induction s with
  | nil => rfl
  | cons r s ih =>
    rw [depth_cons, ih, nodes_cons, IbRun.size]
    simp
    omega

theorem nodes_push : (s.push node kind).nodes = node :: s.nodes := by
  cases kind with
  | normal | call => simp [push, nodes, IbRun.toList]
  | chain => cases s <;> simp [push, nodes, IbRun.toList]

namespace Grouped

theorem mono (h : s.Grouped kind?) (hkind : ∀ n k, kind? n = some k → kind?' n = some k) :
    s.Grouped kind?' := by
  induction h with
  | nil => exact .nil
  | outermost hstarts hr => exact .outermost hstarts fun n hn => hkind n _ (hr n hn)
  | cons hstarts hk hne hr _ ih =>
    exact .cons hstarts (hkind _ _ hk) hne (fun n hn => hkind n _ (hr n hn)) ih

theorem push (h : s.Grouped kind?) (hk : kind? node = some kind) :
    (s.push node kind).Grouped kind? := by
  have hnew (hne : kind ≠ .chain) : Grouped kind? ({ start := node } :: s) :=
    .cons rfl hk hne (by simp) h
  cases kind with
  | normal | call => exact hnew nofun
  | chain =>
    cases h with
    | nil => exact .outermost rfl (by simpa [IbRun.toList] using hk)
    | outermost hstarts hr =>
      refine .outermost hstarts fun n hn => ?_
      simp only [IbRun.toList, Array.toList_push, List.reverse_append, List.reverse_singleton,
        List.cons_append, List.mem_cons] at hn
      rcases hn with rfl | hn
      · exact hk
      · exact hr n hn
    | cons hstarts hstart hne hr hs =>
      refine .cons hstarts hstart hne (fun n hn => ?_) hs
      rcases Array.mem_push.mp hn with hn | rfl
      · exact hr n hn
      · exact hk

theorem tail (h : s.Grouped kind?) : Grouped kind? s.tail := by
  cases h with
  | nil | outermost => exact .nil
  | cons _ _ _ _ hs => exact hs

theorem flat (h : s.Grouped kind?) : s.Flat kind? where
  top := s.top?_eq
  depth := s.depth_eq_length
  owner := by
    cases h with
    | nil => rfl
    | @outermost r hstarts hr =>
      have hnone : FlatStack.unchained? kind? r.toList = none :=
        List.find?_eq_none.mpr fun n hn => by simp [hr n hn]
      simp [owner?, nodes, hstarts, hnone]
    | @cons r s k hstarts hk hne hr _ =>
      have hr' : ∀ n ∈ r.chained.toList.reverse, kind? n = some .chain := by simpa using hr
      rw [nodes_cons, FlatStack.unchained?_append hr']
      simp [owner?, hstarts, FlatStack.unchained?, hk, hne]
  leave := by
    cases h with
    | nil => rfl
    | @outermost r _ hr =>
      -- The last buffer stays, although it is chained.
      have hr' : ∀ n ∈ r.chained.toList.reverse, kind? n = some .chain := fun n hn =>
        hr n (List.mem_append_left _ hn)
      rw [nodes_cons, FlatStack.leave, FlatStack.dropChained_append hr' (List.cons_ne_nil _ _)]
      rfl
    | @cons r s k _ hk hne hr _ =>
      have hr' : ∀ n ∈ r.chained.toList.reverse, kind? n = some .chain := by simpa using hr
      have hstart : kind? r.start ≠ some .chain := by simpa [hk] using hne
      rw [nodes_cons, FlatStack.leave, FlatStack.dropChained_append hr' (List.cons_ne_nil _ _),
        FlatStack.dropChained_of_ne hstart]
      rfl

end Grouped

end IbStack

/-! ## Passes -/

namespace Pass

variable {o : Options} {m : Reader} {p q : Pass} {submit index ibIndex : Nat}
  {ib : IndirectBuffer} {kind : IbKind} {x : Step}

/-- Both stacks have the runs that the kinds of the nodes tell. -/
structure Grouped (p : Pass) : Prop where
  draw : p.drawIbs.Grouped p.nodes.ibKind?
  constant : p.constantIbs.Grouped p.nodes.ibKind?

namespace Grouped

theorem ibs (h : p.Grouped) : p.ibs.Grouped p.nodes.ibKind? := by
  unfold Pass.ibs
  split
  · exact h.constant
  · exact h.draw

/-- The buffers on the stacks keep their kinds. -/
theorem grow {new : List Node} (h : p.Grouped) (hnodes : q.nodes = p.nodes ++ new)
    (hdraw : q.drawIbs = p.drawIbs) (hconstant : q.constantIbs = p.constantIbs) : q.Grouped := by
  have hkind (n : Nat) (k : IbKind) (hk : p.nodes.ibKind? n = some k) :
      q.nodes.ibKind? n = some k := hnodes ▸ Nodes.ibKind?_append hk
  exact ⟨hdraw ▸ h.draw.mono hkind, hconstant ▸ h.constant.mono hkind⟩

theorem modifyIbs {f : IbStack → IbStack} (h : p.Grouped)
    (hf : (f p.ibs).Grouped p.nodes.ibKind?) : (p.modifyIbs f).Grouped := by
  unfold Pass.ibs at hf
  unfold Pass.modifyIbs
  split at hf
  · rename_i hconstant
    rw [if_pos hconstant]
    exact ⟨h.draw, hf⟩
  · rename_i hdraw
    rw [if_neg hdraw]
    exact ⟨hf, h.constant⟩

end Grouped

theorem Enters.grouped (hq : Enters o submit ibIndex ib kind p q) (h : p.Grouped) : q.Grouped := by
  -- The node of the new buffer tells its kind.
  let r : Pass := { p.onEngine ib.constantEngine with nodes := q.nodes }
  have hr : r.Grouped := Grouped.grow (q := r) h hq.adds.nodes rfl rfl
  have hentered : (r.entered p.nodes.size kind).Grouped := by
    obtain ⟨hdraw, hconstant⟩ := hr.modifyIbs (f := (IbStack.push · p.nodes.size kind))
      (hr.ibs.push hq.ibKind?_new)
    exact ⟨hdraw, hconstant⟩
  have hctx : q.context = (r.entered p.nodes.size kind).context := by
    rw [hq.context, entered_context, entered_context]
    rfl
  have hnodes : q.nodes = (r.entered p.nodes.size kind).nodes ++ ([] : List Node) := by
    rw [Array.appendList_nil, entered_nodes]
  exact hentered.grow hnodes (congrArg drawIbs hctx :) (congrArg constantIbs hctx :)

theorem left_grouped (h : p.Grouped) : p.popped.scopeLeft.beginCleared.Grouped := by
  obtain ⟨_, _, _, hleft⟩ := p.popped.scopeLeft_eq
  obtain ⟨hdraw, hconstant⟩ := h.modifyIbs (f := List.tail) h.ibs.tail
  rw [hleft]
  exact ⟨hdraw, hconstant⟩

/-- Whatever happens, the runs stay those that the kinds of the nodes tell. -/
theorem Change.grouped (hc : p.Change q) (h : p.Grouped) : q.Grouped := by
  cases hc with
  | submitBegins _ _ hq hctx | endsState _ hq hctx | presents hq hctx =>
    exact h.grow hq.nodes (congrArg drawIbs hctx :) (congrArg constantIbs hctx :)
  | enters _ hq => exact hq.grouped h
  | leaves => exact left_grouped h
  | logs _ _ hq | shares _ hq =>
    exact h.grow hq.adds.nodes (congrArg drawIbs hq.context :) (congrArg constantIbs hq.context :)
  | works _ hq =>
    cases hq with
    | sync _ _ hq hctx | event _ _ hq hctx =>
      exact h.grow hq.nodes (congrArg drawIbs hctx :) (congrArg constantIbs hctx :)
    | nothing => exact h
  | obeys _ _ hq =>
    obtain ⟨_, hnodes⟩ := hq.nodes
    exact h.grow hnodes (congrArg drawIbs hq.still_eq :) (congrArg constantIbs hq.still_eq :)
  | marks | clears | sorts | unmarks => exact ⟨h.draw, h.constant⟩
  | submitEnds => exact ⟨.nil, .nil⟩

/-- A buffer is listed below the node that the flat stack gives. -/
theorem ibOwner_eq (h : p.ibs.Flat p.nodes.ibKind?) :
    ibOwner o p submit kind =
      FlatStack.owner p.nodes.ibKind? o.flattenChains submit p.ibs.nodes kind := by
  rw [ibOwner, h.top, h.owner, FlatStack.owner, List.headD_eq_head?_getD]

/-- What a step of a walk does to a stack without runs. A buffer that is entered is listed below
the owner that this stack gives. -/
def StepsFlat (o : Options) (submit : Nat) (p q : Pass) : Step → Prop
  | .enter _ _ kind => q.ibs.nodes = p.nodes.size :: p.ibs.nodes ∧ ∀ v ∈ View.withBuffers,
      p.nodes.size ∈ q.owned v
        (FlatStack.owner p.nodes.ibKind? o.flattenChains submit p.ibs.nodes kind)
  | .leave _ _ => q.ibs.nodes = FlatStack.leave p.nodes.ibKind? p.ibs.nodes
  | .packet .. => q.ibs.nodes = p.ibs.nodes

theorem Turns.stepsFlat (h : Turns o m index submit p x q) (hp : p.Sound)
    (hs : p.submit = some submit) (hgrouped : p.Grouped) : p.StepsFlat o submit q x := by
  have hflat := hgrouped.ibs.flat
  cases h with
  | @enter _ ib kind _ hq =>
    refine ⟨by rw [hq.ibs_eq, IbStack.nodes_push], fun v hv => ?_⟩
    let r : Pass := p.onEngine ib.constantEngine
    have hflat' : r.ibs.Flat r.nodes.ibKind? := hq.onEngine_ibs.symm ▸ hflat
    have howner : ibOwner o r submit kind =
        FlatStack.owner p.nodes.ibKind? o.flattenChains submit p.ibs.nodes kind := by
      rw [ibOwner_eq hflat', hq.onEngine_ibs]
      rfl
    exact ((hq.ownsBuffer_iff hp hv).mpr (.inr ⟨howner.symm, rfl⟩)).2
  | leave => exact (congrArg IbStack.nodes popped_ibs).trans hflat.leave
  | skip => rfl
  | packet _ hq =>
    obtain ⟨-, _, _, -, hfiles⟩ := hq.sound hp hs
    exact congrArg IbStack.nodes (ibs_of_site hfiles.site)

end Pass

end CaptureForest
