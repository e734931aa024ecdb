import CaptureForest.Proofs.Pass.Owners

/-! # What the end of a submit adds

At the end of a submit its presents get nodes below the root, in their order, behind the node of the
packets that no event followed. No other node but the submit gets a child
(`Pass.submitEnd_adds`). -/

namespace CaptureForest.Pass

variable {p q : Pass} {submit : Nat}

/-! ## What an action that succeeds has found -/

section

variable {α β : Type} {a : α}

theorem openSubmit_ok {f : Nat → PassM α} (h : (openSubmit >>= f) p = .ok a q) :
    ∃ submit, p.submit = some submit ∧ f submit p = .ok a q := by
  have hopen : Leads openSubmit p (fun submit r => p.submit = some submit ∧ r = p)
      fun _ _ => True := by
    unfold openSubmit
    refine leads_bind.mpr (leads_get.mpr ?_)
    cases hs : p.submit with
    | some submit => exact leads_pure.mpr ⟨rfl, rfl⟩
    | none => exact leads_throw.mpr trivial
  obtain ⟨submit, r, hr, hf⟩ := exists_of_bind_eq_ok h
  obtain ⟨hs, rfl⟩ := hopen.of_ok hr
  exact ⟨submit, hs, hf⟩

theorem require_ok {e : Option β} {otherwise : Violation} {f : β → PassM α}
    (h : (require e otherwise >>= f) p = .ok a q) : ∃ b, e = some b ∧ f b p = .ok a q := by
  cases e with
  | some b => exact ⟨b, rfl, h⟩
  | none => cases h

end

/-! ## Presents -/

/-- The text names the place `i` of a present: the number stands behind the word, and behind the
number nothing or a comma. -/
def NamesPlace (text : String) (i : Nat) : Prop :=
  ∃ rest, text = "Present: " ++ toString i ++ rest ∧ (rest = "" ∨ ∃ more, rest = ", " ++ more)

/-- The digits behind the word are those of the number. -/
theorem NamesPlace.digits {text : String} {i : Nat} (h : NamesPlace text i) :
    (text.toList.drop "Present: ".toList.length).takeWhile Char.isDigit = Nat.toDigits 10 i := by
  obtain ⟨rest, rfl, hrest⟩ := h
  have hends : rest.toList.takeWhile Char.isDigit = [] := by
    rcases hrest with rfl | ⟨more, rfl⟩
    · rfl
    · rw [String.toList_append]
      rfl
  rw [String.toList_append, String.toList_append, List.append_assoc, List.drop_left,
    Nat.toString_eq_repr, Nat.toList_repr, List.takeWhile_append_of_pos fun _ hc =>
      Nat.isDigit_of_mem_toDigits (by decide) (Nat.le_refl 10) hc, hends, List.append_nil]

theorem NamesPlace.unique {text : String} {i j : Nat} (hi : NamesPlace text i)
    (hj : NamesPlace text j) : i = j := by
  have hdigits : Nat.toDigits 10 i = Nat.toDigits 10 j := hi.digits.symm.trans hj.digits
  calc
    i = Nat.ofDigitChars 10 (Nat.toDigits 10 i) 0 := Nat.ofDigitChars_ten_toDigits.symm
    _ = Nat.ofDigitChars 10 (Nat.toDigits 10 j) 0 := by rw [hdigits]
    _ = j := Nat.ofDigitChars_ten_toDigits

/-- A present is described by its place, with or without a surface. -/
theorem namesPlace_presentNode (i : Nat) (present : Present) (j : Nat) :
    NamesPlace (presentNode i present).description j ↔ j = i := by
  have hi : NamesPlace (presentNode i present).description i := by
    refine ⟨_, rfl, ?_⟩
    split
    · exact .inr ⟨_, rfl⟩
    · exact .inl rfl
  exact ⟨fun hj => hj.unique hi, fun heq => heq ▸ hi⟩

/-- The nodes of those presents that follow the submit at place `index`. -/
def presentNodes (index : Nat) (presents : List (Present × Nat)) : List Node :=
  presents.filterMap fun (present, i) =>
    if present.submit = index then some (presentNode i present) else none

theorem presentNodes_append {index : Nat} {l l' : List (Present × Nat)} :
    presentNodes index (l ++ l') = presentNodes index l ++ presentNodes index l' :=
  List.filterMap_append

theorem mem_presentNodes {index : Nat} {presents : List Present} {node : Node} :
    node ∈ presentNodes index presents.zipIdx ↔ ∃ i present, presents[i]? = some present ∧
      present.submit = index ∧ node = presentNode i present := by
  simp only [presentNodes, List.mem_filterMap, Prod.exists, Option.ite_none_right_eq_some,
    Option.some.injEq, List.mk_mem_zipIdx_iff_getElem?]
  constructor
  · rintro ⟨present, i, hi, hsubmit, rfl⟩
    exact ⟨i, present, hi, hsubmit, rfl⟩
  · rintro ⟨i, present, hi, hsubmit, rfl⟩
    exact ⟨present, i, hi, hsubmit, rfl⟩

/-- Nodes from `first` on, each below the root. -/
def belowRoot (first count : Nat) : Links :=
  .on View.withEvents ((List.range' first count).map (rootNode, ·))

theorem belowRoot_append {first count more : Nat} :
    belowRoot first count ++ belowRoot (first + count) more = belowRoot first (count + more) := by
  rw [belowRoot, belowRoot, belowRoot, Links.on_append, ← List.map_append, List.range'_append_1]

theorem children_belowRoot {first count n : Nat} {v : View} :
    (belowRoot first count v).children n =
      if v ∈ View.withEvents ∧ n = rootNode then List.range' first count else [] := by
  rw [belowRoot, Links.on_apply]
  by_cases hv : v ∈ View.withEvents
  · rw [if_pos hv]
    split
    · rename_i hn
      rw [hn.2, EdgeLog.children_fan]
    · rename_i hn
      refine List.eq_nil_iff_forall_not_mem.mpr fun c hc => ?_
      obtain ⟨_, -, heq⟩ := List.mem_map.mp (EdgeLog.mem_children.mp hc)
      exact hn ⟨hv, (congrArg Prod.fst heq).symm⟩
  · rw [if_neg hv, if_neg fun hn => hv hn.1]
    rfl

/-- The presents of a submit are attached to the root, in their order. -/
theorem addPresents_adds (h : p.Sized) (hroot : rootNode < p.nodes.size) (index : Nat) :
    let nodes := presentNodes index p.presents.zipIdx
    Succeeds (addPresents index) p fun _ q =>
      p.Adds q nodes (belowRoot p.nodes.size nodes.length) .none ∧ q.context = p.context := by
  unfold addPresents
  refine leads_bind.mpr (leads_get.mpr ?_)
  refine Leads.forM (I := fun done q => p.Adds q (presentNodes index done)
    (belowRoot p.nodes.size (presentNodes index done).length) .none ∧ q.context = p.context)
    ⟨?_, rfl⟩ ?_
  · simpa [presentNodes, belowRoot] using Adds.refl h
  rintro done ⟨present, i⟩ rest q - ⟨hq, hctx⟩
  rw [presentNodes_append]
  refine leads_ite.mpr ⟨fun hsubmit => ?_, fun hsubmit => ?_⟩
  · have hone : presentNodes index [(present, i)] = [presentNode i present] := by
      simp [presentNodes, hsubmit]
    refine (addPresent_succeeds hq.sized (Nat.lt_of_lt_of_le hroot hq.le_size) i present).imp ?_
    rintro _ r ⟨hr, hctxr⟩
    have hlinks : Links.on View.withEvents [(rootNode, q.nodes.size)] =
        belowRoot (p.nodes.size + (presentNodes index done).length) 1 := by rw [hq.size]; rfl
    have hall := hq.trans hr
    rw [hlinks, belowRoot_append] at hall
    rw [hone, List.length_append]
    exact ⟨hall, hctxr.trans hctx⟩
  · have hnone : presentNodes index [(present, i)] = [] := by simp [presentNodes, hsubmit]
    rw [hnone, List.append_nil]
    exact ⟨hq, hctx⟩

/-! ## The end of a submit -/

/-- A step of a walk leaves the presents and the engines as they are. -/
theorem Turns.presents_engines {o : Options} {m : Reader} {index : Nat} {x : Step}
    (h : Turns o m index submit p x q) (hp : p.Sound) (hs : p.submit = some submit) :
    q.presents = p.presents ∧ q.engines = p.engines := by
  cases h with
  | enter hq =>
    obtain ⟨_, _, hctx⟩ := hq.context_eq
    exact ⟨(congrArg Pass.presents hctx :), (congrArg Pass.engines hctx :)⟩
  | leave =>
    obtain ⟨_, _, _, _, _, hleft⟩ := p.left_eq
    rw [hleft]
    exact ⟨rfl, rfl⟩
  | skip => exact ⟨rfl, rfl⟩
  | packet _ hq =>
    obtain ⟨-, _, _, -, hfiles⟩ := hq.sound hp hs
    exact ⟨(congrArg Site.presents hfiles.site :), (congrArg Site.engines hfiles.site :)⟩

/-- The postamble is seen by the submit alone, and in no view of buffers. -/
theorem addPostamble_owned (h : p.Ready submit) (hsubmit : p.nodes.kind? submit = some .submit) :
    Succeeds (addPostamble submit) p fun _ q => ∃ states : List Node,
      (∀ node ∈ states, node.kind = .postambleState) ∧ q.nodes = p.nodes ++ states ∧ q.Sized ∧
      (∀ v n k, p.nodes.kind? n = some k → k ≠ .submit → q.owned v n = p.owned v n) ∧
      (∀ v ∈ View.withBuffers, ∀ n, q.owned v n = p.owned v n) ∧
      q.context = { p.context with packets := #[] } := by
  refine (addPostamble_adds h).imp fun _ q hq => ?_
  split at hq
  · rename_i hempty
    subst hq
    refine ⟨[], by simp, Array.appendList_nil.symm, h.sized, fun _ _ _ _ _ => rfl,
      fun _ _ _ => rfl, ?_⟩
    rw [← Array.isEmpty_iff.mp hempty]
    rfl
  · obtain ⟨hall, hctx⟩ := hq
    refine ⟨[stateNode _], by simp [stateNode], hall.nodes, hall.sized,
      fun _ _ _ hn hk => hall.owned_eq_of_single hsubmit hn hk.symm, fun v hv n => ?_, hctx⟩
    rw [hall.owned, Links.on_apply, if_neg (not_mem_withEvents hv)]
    exact List.append_nil _

/-- At the end of a submit, the root gets the presents as children. Buffers are sorted, no more. -/
theorem submitEnd_adds (h : p.Sound) (hs : p.submit = some submit) (index : Nat) :
    let presents := presentNodes index p.presents.zipIdx
    Succeeds (submitEnd index) p fun _ q => ∃ states : List Node,
      (∀ node ∈ states, node.kind = .postambleState) ∧ q.nodes = p.nodes ++ (states ++ presents) ∧
      (∀ v n k, p.nodes.kind? n = some k → k ≠ .submit → q.owned v n = p.owned v n ++
        (belowRoot (p.nodes.size + states.length) presents.length v).children n) ∧
      (∀ v ∈ View.withBuffers, ∀ n, q.owned v n = (p.sorted submit).owned v n) ∧
      q.context = p.ended.context := by
  have hsubmit := h.submit submit hs
  have hsorted := sorted_replaces h.sized (Nodes.kind?_lt hsubmit)
  have hkeeps (v : View) (n : Nat) (k : NodeKind) (hn : p.nodes.kind? n = some k)
      (hk : k ≠ .submit) : (p.sorted submit).owned v n = p.owned v n := by
    rw [hsorted.owned]
    split
    · rename_i hv
      subst hv
      refine if_neg ?_
      rintro rfl
      exact hk (Option.some.inj (hn.symm.trans hsubmit))
    · rfl
  unfold submitEnd openSubmit
  refine leads_bind.mpr (leads_bind.mpr (leads_get.mpr ?_))
  rw [hs]
  refine leads_pure.mpr (leads_bind.mpr (leads_bind.mpr (leads_get.mpr (leads_bind.mpr
    (leads_get.mpr (leads_modify.mpr (leads_bind.mpr (leads_modify.mpr ?_))))))))
  refine (addPostamble_owned ((h.sorted hs).unmarked.ready hs) hsubmit).bind ?_
  rintro _ q ⟨states, hstates, hnodes, hsized, howned, hbuffers, hctx⟩
  have hsize : q.nodes.size = p.nodes.size + states.length := by
    rw [hnodes, Nodes.size_append_list]
    rfl
  have hroot : rootNode < q.nodes.size := by
    have := Nodes.kind?_lt (h.arranged.root.mpr rfl : p.nodes.kind? rootNode = some .root)
    omega
  refine (addPresents_adds hsized hroot index).bind ?_
  rintro _ r ⟨hr, hctx'⟩
  have hpresents : q.presents = p.presents := (congrArg Pass.presents hctx :)
  rw [hpresents, hsize] at hr
  refine leads_bind.mpr (leads_modify.mpr (leads_modify.mpr ⟨states, hstates, ?_, ?_, ?_, ?_⟩))
  · show r.nodes = _
    rw [hr.nodes, hnodes, Nodes.append_append_list]
    rfl
  · intro v n k hn hk
    have hq := howned v n k hn hk
    exact (hr.owned v n).trans (congrArg (· ++ _) (hq.trans (hkeeps v n k hn hk)))
  · intro v hv n
    have hnone : (belowRoot (p.nodes.size + states.length)
        (presentNodes index p.presents.zipIdx).length v).children n = [] := by
      rw [children_belowRoot, if_neg fun hroot => not_mem_withEvents hv hroot.1]
    have hr' := hr.owned v n
    rw [hnone, List.append_nil] at hr'
    exact hr'.trans (hbuffers v hv n)
  · exact (congrArg (fun c : Pass => c.submitClosed.beginCleared) (hctx'.trans hctx) :)

end CaptureForest.Pass
