import CaptureForest.Proofs.View.Preorder

/-! # Owners above a node

`Forest.Above` lists the owners above a node, the nearest first. A node has at most one such list,
no node is on it twice, and so a bound by the number of nodes leaves no owner out. Where no node is
above itself each node has such a list, and the loops that go up from it come to an end
(`Forest.Acyclic.ancestors_depth`). -/

namespace CaptureForest.Forest

variable {α : Type} {f : Forest} {step : α → Nat → α} {acc result : α} {n p m c : Nat}
  {owners owners' : List Nat}

/-- The owners above a node are `owners`, the nearest first; the last one has no owner. -/
inductive Above (f : Forest) : (node : Nat) → (owners : List Nat) → Prop
  | top {node : Nat} : f.parent? node = none → Above f node []
  | up {node p : Nat} {owners : List Nat} :
    f.parent? node = some p → Above f p owners → Above f node (p :: owners)

/-- The node `p` owns `n`. -/
def Owned (f : Forest) (n p : Nat) : Prop := f.parent? n = some p

/-- No node is above itself. -/
def Acyclic (f : Forest) : Prop := ∀ n, ¬Relation.TransGen f.Owned n n

theorem foldl_countOwner (l : List Nat) (count : Nat) :
    l.foldl countOwner count = count + l.length := by
  induction l generalizing count with
  | nil => rfl
  | cons _ l ih =>
    rw [List.foldl_cons, ih, countOwner, List.length_cons]
    omega

theorem Rooted.parent?_of_mem (hf : f.Rooted) (hc : c ∈ (f.children n).toList) :
    f.parent? c = some n := by
  obtain ⟨i, hi⟩ := Array.getElem?_of_mem (Array.mem_def.mpr hc)
  rw [parent?, hf.owner.mpr hi]
  rfl

theorem lt_of_parent? (h : f.parent? n = some p) : n < f.size := by
  obtain ⟨o, ho, -⟩ := Option.map_eq_some_iff.mp h
  obtain ⟨place, hplace, -⟩ := Option.bind_eq_some_iff.mp ho
  exact (Array.getElem?_eq_some_iff.mp hplace).1

namespace Above

theorem unique (h : f.Above n owners) (h' : f.Above n owners') : owners = owners' := by
  induction h generalizing owners' with
  | top hnone =>
    cases h' with
    | top => rfl
    | up hp => cases hnone.symm.trans hp
  | up hp _ ih =>
    cases h' with
    | top hnone => cases hnone.symm.trans hp
    | up hp' h' =>
      cases hp.symm.trans hp'
      rw [ih h']

/-- The owners above an owner are fewer. -/
theorem of_mem (h : f.Above n owners) (hm : m ∈ owners) :
    ∃ owners', owners'.length < owners.length ∧ f.Above m owners' := by
  induction h with
  | top => cases hm
  | up _ h ih =>
    rcases List.mem_cons.mp hm with rfl | hm
    · exact ⟨_, Nat.lt_succ_self _, h⟩
    · obtain ⟨owners', hlt, h'⟩ := ih hm
      exact ⟨owners', Nat.lt_succ_of_lt hlt, h'⟩

/-- A node with owners is not above itself: it would have fewer of them. -/
theorem nodup (h : f.Above n owners) : (n :: owners).Nodup := by
  induction h with
  | top => exact List.nodup_singleton _
  | up hp h ih =>
    refine List.nodup_cons.mpr ⟨fun hmem => ?_, ih⟩
    obtain ⟨owners', hlt, h'⟩ := (up hp h).of_mem hmem
    exact Nat.ne_of_lt hlt (congrArg List.length (h'.unique (up hp h)))

/-- All but the last one have an owner and so are nodes of the forest. -/
theorem lt_of_mem_dropLast (h : f.Above n owners) (hm : m ∈ (n :: owners).dropLast) :
    m < f.size := by
  induction h with
  | top => cases hm
  | up hp _ ih =>
    rw [List.dropLast_cons_cons] at hm
    rcases List.mem_cons.mp hm with rfl | hm
    · exact lt_of_parent? hp
    · exact ih hm

theorem length_le (h : f.Above n owners) : owners.length ≤ f.size := by
  have hle := length_le_of_nodup (h.nodup.sublist (List.dropLast_sublist _))
    fun _ => h.lt_of_mem_dropLast
  rwa [List.length_dropLast, List.length_cons, Nat.add_sub_cancel] at hle

/-- The loop takes in the owners above a node and comes to an end. -/
theorem ascends_iff (h : f.Above n owners) :
    f.Ascends step n acc result ↔ result = owners.foldl step acc := by
  induction h generalizing acc with
  | top hnone =>
    constructor
    · intro ha
      cases ha with
      | stop => rfl
      | up hp => cases hnone.symm.trans hp
    · rintro rfl
      exact .stop hnone
  | up hp _ ih =>
    rw [List.foldl_cons, ← ih]
    constructor
    · intro ha
      cases ha with
      | stop hnone => cases hnone.symm.trans hp
      | up hp' ha =>
        cases hp.symm.trans hp'
        exact ha
    · exact .up hp

theorem ascend_eq (h : f.Above n owners) {fuel : Nat} (hfuel : owners.length ≤ fuel) :
    f.ascend step fuel n acc = owners.foldl step acc := by
  induction h generalizing fuel acc with
  | top hnone =>
    cases fuel with
    | zero => rfl
    | succ fuel => rw [ascend, hnone, List.foldl_nil]
  | up hp _ ih =>
    obtain ⟨fuel, rfl⟩ := Nat.exists_eq_add_of_le' (Nat.one_le_of_lt hfuel)
    rw [ascend, hp, List.foldl_cons]
    exact ih (Nat.le_of_succ_le_succ hfuel)

theorem ancestors_eq (h : f.Above n owners) : f.ancestors n = owners.toArray := by
  rw [ancestors, h.ascend_eq h.length_le, List.foldl_push_eq_append]
  simp

theorem depth_eq (h : f.Above n owners) : f.depth n = owners.length := by
  rw [depth, h.ascend_eq h.length_le, foldl_countOwner, Nat.zero_add]

end Above

/-- A climb from a node below the root ends at the root. -/
theorem Rooted.above_of_over (hf : f.Rooted) (hn : f.Over rootNode n) :
    ∃ owners, f.Above n owners ∧ (n :: owners).getLast? = some rootNode := by
  induction hn with
  | refl => exact ⟨[], .top (by rw [parent?, hf.root]; rfl), rfl⟩
  | @tail m c _ hc ih =>
    obtain ⟨owners, h, hlast⟩ := ih
    refine ⟨m :: owners, .up (hf.parent?_of_mem hc) h, ?_⟩
    rw [List.getLast?_cons_cons]
    exact hlast

/-- The last owner above a node below the root is the root. -/
theorem Rooted.back?_ancestors (hf : f.Rooted) (hn : f.Over rootNode n) (hne : n ≠ rootNode) :
    (f.ancestors n).back? = some rootNode := by
  obtain ⟨owners, h, hlast⟩ := hf.above_of_over hn
  rw [h.ancestors_eq, ← Array.getLast?_toList]
  cases owners with
  | nil => exact absurd (Option.some.inj hlast) hne
  | cons p owners => exact hlast

/-- A climb that never comes back to a node gets to one without an owner. The nodes `below` have
been left behind. -/
theorem Acyclic.climb_ends (hf : f.Acyclic) (n : Nat) (below : List Nat) (hnodup : below.Nodup)
    (hbelow : ∀ m ∈ below, m < f.size ∧ Relation.TransGen f.Owned m n) :
    ∃ owners, f.Above n owners := by
  cases hp : f.parent? n with
  | none => exact ⟨[], .top hp⟩
  | some p =>
    have hnodup' : (n :: below).Nodup :=
      List.nodup_cons.mpr ⟨fun hmem => hf n (hbelow n hmem).2, hnodup⟩
    have hbelow' : ∀ m ∈ n :: below, m < f.size ∧ Relation.TransGen f.Owned m p := by
      intro m hm
      rcases List.mem_cons.mp hm with rfl | hm
      · exact ⟨lt_of_parent? hp, .single hp⟩
      · exact ⟨(hbelow m hm).1, (hbelow m hm).2.tail hp⟩
    -- Only as many nodes can be left behind as there are, so the climb gets closer to its end.
    have hle : (n :: below).length ≤ f.size :=
      length_le_of_nodup hnodup' fun m hm => (hbelow' m hm).1
    obtain ⟨owners, h⟩ := climb_ends hf p (n :: below) hnodup' hbelow'
    exact ⟨p :: owners, .up hp h⟩
termination_by f.size - below.length
decreasing_by
  rw [List.length_cons] at hle ⊢
  omega

theorem Acyclic.exists_above (hf : f.Acyclic) (n : Nat) : ∃ owners, f.Above n owners :=
  hf.climb_ends n [] List.nodup_nil nofun

/-- A child is one level deeper than its owner. -/
theorem Acyclic.depth_child (hf : f.Acyclic) (hp : f.parent? c = some n) :
    f.depth c = f.depth n + 1 := by
  obtain ⟨owners, h⟩ := hf.exists_above n
  rw [(Above.up hp h).depth_eq, h.depth_eq, List.length_cons]

theorem Acyclic.depth_pos (hf : f.Acyclic) (hp : f.parent? c = some n) : 0 < f.depth c := by
  rw [hf.depth_child hp]
  exact Nat.succ_pos _

/-- Where no node is above itself, the loops that go up from a node come to an end. They take in as
many owners as the depth of the node. -/
theorem Acyclic.ancestors_depth (hf : f.Acyclic) (n : Nat) :
    (∀ owners, f.Ascends Array.push n #[] owners ↔ owners = f.ancestors n) ∧
      (∀ d, f.Ascends countOwner n 0 d ↔ d = f.depth n) ∧ f.depth n = (f.ancestors n).size := by
  obtain ⟨owners, h⟩ := hf.exists_above n
  have hancestors : f.ancestors n = owners.foldl Array.push #[] := h.ascend_eq h.length_le
  have hdepth : f.depth n = owners.foldl countOwner 0 := h.ascend_eq h.length_le
  refine ⟨fun _ => hancestors ▸ h.ascends_iff, fun _ => hdepth ▸ h.ascends_iff, ?_⟩
  rw [h.depth_eq, h.ancestors_eq, List.size_toArray]

end CaptureForest.Forest
