import Mathlib.Data.List.Forall2
import Mathlib.Data.Prod.Lex
import LowOrderRefinement.Proofs.BoxMesh.ElementNodes

/-! The order in which an element lists its nodes. Nodes are sorted by a key whose leading
parts say on which vertex, edge, face or interior a node lies, and whose last part is
the number of the node. In a sorted list the entries with one key are contiguous, so
the nodes of one entity follow each other in increasing order; and the vertices come
first, in the order of the vertices of a cell. -/

namespace LowOrderRefinement

/-! ### Sorted lists -/

section Sorted

variable {β γ : Type} {xs : List β}

/-- In a sorted list the entries of a lower set come first. -/
theorem eq_filter_append_filter {R : β → β → Prop} {p : β → Bool} (h : xs.Pairwise R)
    (hp : ∀ x y, R x y → p y = true → p x = true) :
    xs = xs.filter p ++ xs.filter fun x => !p x := by
  induction xs with
  | nil => rfl
  | cons x xs ih =>
    obtain ⟨hx, hxs⟩ := List.pairwise_cons.mp h
    by_cases hpx : p x = true
    · rw [List.filter_cons_of_pos hpx, List.filter_cons_of_neg (by simp [hpx]), List.cons_append,
        ← ih hxs]
    · have hnone : (x :: xs).filter p = [] := by
        refine List.filter_eq_nil_iff.mpr fun y hy hpy => hpx ?_
        rcases List.mem_cons.mp hy with rfl | hy
        · exact hpy
        · exact hp x y (hx y hy) hpy
      have hall : ((x :: xs).filter fun x => !p x) = x :: xs := by
        refine List.filter_eq_self.mpr fun y hy => ?_
        simpa using List.filter_eq_nil_iff.mp hnone y hy
      rw [hnone, hall, List.nil_append]

/-- The entries with one key are contiguous in a list that is sorted by keys. -/
theorem filter_eq_isInfix [LinearOrder γ] {f : β → γ} (h : xs.Pairwise fun x y => f x ≤ f y)
    (k : γ) : (xs.filter fun x => f x = k) <:+: xs := by
  have hlow := eq_filter_append_filter (p := fun x => decide (f x < k)) h fun x y hxy hy =>
    decide_eq_true (hxy.trans_lt (of_decide_eq_true hy))
  have hhigh := eq_filter_append_filter (p := fun x => decide (f x ≤ k))
    (h.filter fun x => !decide (f x < k)) fun x y hxy hy =>
      decide_eq_true (hxy.trans (of_decide_eq_true hy))
  have hmiddle : ((xs.filter fun x => !decide (f x < k)).filter fun x => decide (f x ≤ k)) =
      xs.filter fun x => f x = k := by
    rw [List.filter_filter]
    refine List.filter_congr fun x _ => ?_
    rw [← decide_not, ← Bool.decide_and]
    exact decide_eq_decide.mpr (by rw [not_lt, le_antisymm_iff])
  rw [hmiddle] at hhigh
  exact ⟨_, _, by rw [List.append_assoc, ← hhigh, ← hlow]⟩

/-- A list that is sorted by numbers lists the entries with one number after those with another. -/
theorem filter_lt_eq_flatMap {f : β → Nat} (h : xs.Pairwise fun x y => f x ≤ f y) (n : Nat) :
    (xs.filter fun x => f x < n) = (List.range n).flatMap fun k => xs.filter fun x => f x = k := by
  induction n with
  | zero => simp
  | succ n ih =>
    have hsplit := eq_filter_append_filter (p := fun x => decide (f x < n))
      (h.filter fun x => decide (f x < n + 1)) fun x y hxy hy =>
        decide_eq_true (hxy.trans_lt (of_decide_eq_true hy))
    rw [List.filter_filter, List.filter_filter] at hsplit
    rw [List.range_succ, List.flatMap_append, ← ih, List.flatMap_singleton, hsplit]
    congr 1
    · refine List.filter_congr fun x _ => ?_
      rw [← Bool.decide_and]
      exact decide_eq_decide.mpr (by omega)
    · refine List.filter_congr fun x _ => ?_
      rw [← decide_not, ← Bool.decide_and]
      exact decide_eq_decide.mpr (by omega)

end Sorted

namespace NodeOrdering

/-! ### Keys -/

def Key.group (k : Key) : ℕ ×ₗ ℕ ×ₗ ℕ := toLex (k.interiorAxes, toLex (k.vertexRank, k.entity))

def Key.rank (k : Key) : (ℕ ×ₗ ℕ ×ₗ ℕ) ×ₗ ℕ := toLex (k.group, k.lexicographic)

theorem Key.le_iff {a b : Key} : Key.le a b = true ↔ a.rank ≤ b.rank := by
  simp only [rank, group, Prod.Lex.toLex_le_toLex, Prod.Lex.toLex_lt_toLex, toLex_inj,
    Prod.mk.injEq]
  unfold Key.le
  split_ifs <;> simp only [decide_eq_true_eq] <;> omega

theorem pairwise_native (dim : Dimension) (order : Nat) :
    (native dim order).Pairwise fun n n' => (key dim order n).rank ≤ (key dim order n').rank := by
  have htrans (a b c : Key) (hab : Key.le a b = true) (hbc : Key.le b c = true) :
      Key.le a c = true := Key.le_iff.mpr ((Key.le_iff.mp hab).trans (Key.le_iff.mp hbc))
  have htotal (a b : Key) : (Key.le a b || Key.le b a) = true := by
    rw [Bool.or_eq_true, Key.le_iff, Key.le_iff]
    exact le_total a.rank b.rank
  have hkey {keys : List Nat} {k : Key} (hk : k ∈ (keys.map (key dim order)).mergeSort Key.le) :
      key dim order k.lexicographic = k := by
    obtain ⟨n, -, rfl⟩ := List.mem_map.mp ((List.mergeSort_perm _ _).mem_iff.mp hk)
    rfl
  rw [native, List.pairwise_map]
  refine (List.pairwise_mergeSort htrans htotal _).imp_of_mem fun ha hb hab => ?_
  rw [hkey ha, hkey hb]
  exact Key.le_iff.mp hab

theorem pairwise_group (dim : Dimension) (order : Nat) :
    (native dim order).Pairwise fun n n' =>
      (key dim order n).group ≤ (key dim order n').group :=
  (pairwise_native dim order).imp fun h => Prod.Lex.monotone_fst _ _ h

theorem pairwise_interiorAxes (dim : Dimension) (order : Nat) :
    (native dim order).Pairwise fun n n' =>
      (key dim order n).interiorAxes ≤ (key dim order n').interiorAxes :=
  (pairwise_group dim order).imp fun h => Prod.Lex.monotone_fst _ _ h

/-! ### Entities -/

/-- Two nodes lie on the same vertex, edge, face or interior when along every axis both of them are
at its lower end, at its upper end, or between. -/
def SameEntity (order : Nat) (node node' : List Nat) : Prop :=
  List.Forall₂ (fun c c' => (c = 0 ↔ c' = 0) ∧ (c = order ↔ c' = order)) node node'

instance (order : Nat) (node node' : List Nat) : Decidable (SameEntity order node node') :=
  inferInstanceAs (Decidable (List.Forall₂ _ node node'))

variable {dim : Dimension} {order : Nat} {node node' : List Nat}

theorem location_eq_iff {c c' : Nat} :
    location order c = location order c' ↔ (c = 0 ↔ c' = 0) ∧ (c = order ↔ c' = order) := by
  unfold location
  split_ifs <;> grind

theorem sameEntity_iff :
    SameEntity order node node' ↔ node.map (location order) = node'.map (location order) := by
  rw [← List.forall₂_eq_eq_eq, List.forall₂_map_left_iff, List.forall₂_map_right_iff]
  simp only [location_eq_iff]
  rfl

theorem entity_eq_iff (hlength : node.length = node'.length) :
    entity order node = entity order node' ↔
      node.map (location order) = node'.map (location order) := by
  have hshape (node : List Nat) : Lattice.inBox (node.map (location order))
      (List.replicate node.length 3) := by
    refine Lattice.inBox_replicate.mpr ⟨List.length_map _, fun c hc => ?_⟩
    obtain ⟨c, -, rfl⟩ := List.mem_map.mp hc
    unfold location
    split_ifs <;> decide
  rw [entity, entity, List.map_const', List.map_const', hlength]
  exact ⟨Lattice.flatten_inj (hlength ▸ hshape node) (hshape node'), fun h => by rw [h]⟩

theorem interiorAxes_eq_count (order : Nat) (node : List Nat) :
    interiorAxes order node = (node.map (location order)).count 1 := by
  rw [interiorAxes, List.count_eq_countP, List.countP_map, List.countP_eq_length_filter]
  congr 1
  refine List.filter_congr fun c _ => ?_
  simp only [location, Function.comp_apply]
  split_ifs <;> simp_all

theorem interiorAxes_eq_zero_iff :
    interiorAxes order node = 0 ↔ ∀ c ∈ node, c = 0 ∨ c = order := by
  rw [interiorAxes, List.length_eq_zero_iff, List.filter_eq_nil_iff]
  refine forall₂_congr fun c _ => ?_
  simp only [decide_eq_true_eq]
  tauto

/-- A node that shares its entity with a vertex is the vertex. -/
theorem SameEntity.eq_of_vertex (h : SameEntity order node node')
    (hnode : interiorAxes order node = 0) : node = node' := by
  rw [interiorAxes_eq_zero_iff] at hnode
  induction h with
  | nil => rfl
  | @cons c c' node node' hc _ ih =>
    obtain ⟨hvertex, hnode⟩ := List.forall_mem_cons.mp hnode
    obtain rfl : c = c' := by
      rcases hvertex with h | h
      · rw [h, hc.1.mp h]
      · rw [h, hc.2.mp h]
    rw [ih hnode]

/-! ### Vertices -/

def cornerPoint (order : Nat) (v : List Nat) : List Nat := v.map (· * order)

theorem interiorAxes_cornerPoint {v : List Nat} (hv : v ∈ Shape.vertices dim) :
    interiorAxes order (cornerPoint order v) = 0 := by
  rw [interiorAxes_eq_zero_iff]
  intro c hc
  obtain ⟨b, hb, rfl⟩ := List.mem_map.mp hc
  have hlt := (Shape.mem_vertices.mp hv).2 b hb
  interval_cases b
  · exact .inl (Nat.zero_mul order)
  · exact .inr (Nat.one_mul order)

theorem inBox_cornerPoint {v : List Nat} (hv : v ∈ Shape.vertices dim) :
    Lattice.inBox (cornerPoint order v) (shape dim order) := by
  refine inBox_shape_iff.mpr ⟨?_, fun c hc => ?_⟩
  · rw [cornerPoint, List.length_map]
    exact (Shape.mem_vertices.mp hv).1
  · rcases interiorAxes_eq_zero_iff.mp (interiorAxes_cornerPoint hv) c hc with rfl | rfl
    · exact Nat.zero_le order
    · exact le_rfl

theorem exists_cornerPoint (horder : 0 < order) (hlength : node.length = dim.value)
    (h : interiorAxes order node = 0) : ∃ v ∈ Shape.vertices dim, cornerPoint order v = node := by
  rw [interiorAxes_eq_zero_iff] at h
  refine ⟨node.map (· / order), Shape.mem_vertices.mpr ⟨(List.length_map _).trans hlength, ?_⟩, ?_⟩
  · intro c hc
    obtain ⟨b, hb, rfl⟩ := List.mem_map.mp hc
    rcases h b hb with rfl | rfl
    · rw [Nat.zero_div]
      exact Nat.two_pos
    · rw [Nat.div_self horder]
      exact Nat.one_lt_two
  · rw [cornerPoint, List.map_map]
    refine (List.map_congr_left fun c hc => ?_).trans (List.map_id node)
    rcases h c hc with rfl | rfl
    · simp
    · simp [Nat.div_self horder]

theorem cornerPoint_inj (horder : 0 < order) {v w : List Nat}
    (h : cornerPoint order v = cornerPoint order w) : v = w :=
  List.map_injective_iff.mpr (fun _ _ => Nat.eq_of_mul_eq_mul_right horder) h

theorem nodup_vertices (dim : Dimension) : (Shape.vertices dim).Nodup := by cases dim <;> decide

theorem vertexRank_cornerPoint (horder : 0 < order) {i : Nat}
    (hi : i < (Shape.vertices dim).length) :
    vertexRank dim order (cornerPoint order (Shape.vertices dim)[i]) = i := by
  have hfind : ((Shape.vertices dim).findIdx? fun v =>
      cornerPoint order (Shape.vertices dim)[i] = v.map (· * order)) = some i := by
    refine List.findIdx?_eq_some_iff_getElem.mpr ⟨hi, decide_eq_true rfl, fun j hj hsame => ?_⟩
    have heq := cornerPoint_inj horder (of_decide_eq_true hsame)
    exact hj.ne' ((nodup_vertices dim).getElem_inj_iff.mp heq)
  rw [vertexRank, hfind, Option.getD_some]

theorem vertexRank_of_interior (h : interiorAxes order node ≠ 0) :
    vertexRank dim order node = 0 := by
  have hnone : ((Shape.vertices dim).findIdx? fun v => node = v.map (· * order)) = none := by
    refine List.findIdx?_eq_none_iff.mpr fun v hv => decide_eq_false ?_
    rintro rfl
    exact h (interiorAxes_cornerPoint hv)
  rw [vertexRank, hnone, Option.getD_none]

/-! ### The order of an element -/

theorem key_group_eq_iff {n n' : Nat} :
    (key dim order n).group = (key dim order n').group ↔
      SameEntity order (Lattice.unflatten n (shape dim order))
        (Lattice.unflatten n' (shape dim order)) := by
  have hlength : (Lattice.unflatten n (shape dim order)).length =
      (Lattice.unflatten n' (shape dim order)).length := by
    rw [Lattice.length_unflatten, Lattice.length_unflatten]
  simp only [Key.group, key, toLex_inj, Prod.mk.injEq]
  constructor
  · rintro ⟨-, -, hentity⟩
    exact sameEntity_iff.mpr ((entity_eq_iff hlength).mp hentity)
  · intro h
    have hlocations := sameEntity_iff.mp h
    have haxes : interiorAxes order (Lattice.unflatten n (shape dim order)) =
        interiorAxes order (Lattice.unflatten n' (shape dim order)) := by
      rw [interiorAxes_eq_count, hlocations, interiorAxes_eq_count]
    refine ⟨haxes, ?_, (entity_eq_iff hlength).mpr hlocations⟩
    by_cases hvertex : interiorAxes order (Lattice.unflatten n (shape dim order)) = 0
    · rw [h.eq_of_vertex hvertex]
    · rw [vertexRank_of_interior hvertex, vertexRank_of_interior (haxes ▸ hvertex)]

theorem mem_native {n : Nat} : n ∈ native dim order ↔ n < (order + 1) ^ dim.value :=
  (native_perm dim order).mem_iff.trans List.mem_range

theorem nodup_native (dim : Dimension) (order : Nat) : (native dim order).Nodup :=
  (native_perm dim order).nodup_iff.mpr List.nodup_range

def corners (dim : Dimension) (order : Nat) : List Nat :=
  (Shape.vertices dim).map fun v => Lattice.flatten (cornerPoint order v) (shape dim order)

theorem unflatten_corner {v : List Nat} (hv : v ∈ Shape.vertices dim) :
    Lattice.unflatten (Lattice.flatten (cornerPoint order v) (shape dim order)) (shape dim order) =
      cornerPoint order v :=
  Lattice.unflatten_flatten (inBox_cornerPoint hv)

theorem mem_corners (horder : 0 < order) {n : Nat} :
    n ∈ corners dim order ↔ n < (order + 1) ^ dim.value ∧
      interiorAxes order (Lattice.unflatten n (shape dim order)) = 0 := by
  constructor
  · intro hn
    obtain ⟨v, hv, rfl⟩ := List.mem_map.mp hn
    rw [unflatten_corner hv, ← prod_shape]
    exact ⟨Lattice.flatten_lt (inBox_cornerPoint hv), interiorAxes_cornerPoint hv⟩
  · rintro ⟨hn, hvertex⟩
    have hlength : (Lattice.unflatten n (shape dim order)).length = dim.value := by
      rw [Lattice.length_unflatten, shape, List.length_replicate]
    obtain ⟨v, hv, hpoint⟩ := exists_cornerPoint horder hlength hvertex
    refine List.mem_map.mpr ⟨v, hv, ?_⟩
    rw [hpoint, Lattice.flatten_unflatten (by rwa [prod_shape])]

theorem nodup_corners (dim : Dimension) (horder : 0 < order) : (corners dim order).Nodup := by
  refine (nodup_vertices dim).map_on fun v hv w hw heq => ?_
  exact cornerPoint_inj horder
    (Lattice.flatten_inj (inBox_cornerPoint hv) (inBox_cornerPoint hw) heq)

theorem pairwise_corners (dim : Dimension) (horder : 0 < order) :
    (corners dim order).Pairwise fun n n' =>
      (key dim order n).rank ≤ (key dim order n').rank := by
  rw [corners, List.pairwise_map, List.pairwise_iff_getElem]
  intro i j hi hj hij
  refine Prod.Lex.toLex_le_toLex.mpr (.inl (Prod.Lex.toLex_lt_toLex.mpr (.inr ⟨?_, ?_⟩)))
  · simp only [key, unflatten_corner (List.getElem_mem _), interiorAxes_cornerPoint
      (List.getElem_mem _)]
  · refine Prod.Lex.toLex_lt_toLex.mpr (.inl ?_)
    simpa only [key, unflatten_corner (List.getElem_mem _), vertexRank_cornerPoint horder] using hij

/-- The nodes at corners are listed in the order of the vertices of a cell. -/
theorem filter_vertices_native (dim : Dimension) (horder : 0 < order) :
    ((native dim order).filter fun n => (key dim order n).interiorAxes = 0) = corners dim order := by
  refine List.Perm.eq_of_pairwise (fun n n' _ _ h h' => ?_)
    ((pairwise_native dim order).filter _) (pairwise_corners dim horder) ?_
  · exact congrArg (·.2) (toLex_inj.mp (le_antisymm h h'))
  · rw [List.perm_ext_iff_of_nodup ((nodup_native dim order).filter _) (nodup_corners dim horder)]
    intro n
    rw [List.mem_filter, decide_eq_true_eq, mem_native, mem_corners horder]
    rfl

/-- The nodes of one entity are contiguous, in increasing order. -/
theorem filter_sameEntity_isInfix (dim : Dimension) (order n : Nat) :
    ((List.range ((order + 1) ^ dim.value)).filter fun n' =>
      SameEntity order (Lattice.unflatten n (shape dim order))
        (Lattice.unflatten n' (shape dim order))) <:+: native dim order := by
  have hgroup (xs : List Nat) : (xs.filter fun n' =>
      SameEntity order (Lattice.unflatten n (shape dim order))
        (Lattice.unflatten n' (shape dim order))) =
      xs.filter fun n' => (key dim order n').group = (key dim order n).group :=
    List.filter_congr fun n' _ => decide_eq_decide.mpr
      (key_group_eq_iff.symm.trans eq_comm)
  -- among nodes with one key the last part of the key, which is the number, decides
  have hincreasing : ((native dim order).filter fun n' =>
      (key dim order n').group = (key dim order n).group).Pairwise (· ≤ ·) := by
    refine ((pairwise_native dim order).filter _).imp_of_mem fun ha hb hab => ?_
    have ha := of_decide_eq_true (List.mem_filter.mp ha).2
    have hb := of_decide_eq_true (List.mem_filter.mp hb).2
    rcases Prod.Lex.toLex_le_toLex.mp hab with h | ⟨-, h⟩
    · exact absurd (ha.trans hb.symm) h.ne
    · exact h
  have hsame : ((List.range ((order + 1) ^ dim.value)).filter fun n' =>
      (key dim order n').group = (key dim order n).group) =
      (native dim order).filter fun n' => (key dim order n').group = (key dim order n).group :=
    List.Perm.eq_of_pairwise (fun _ _ _ _ => Nat.le_antisymm)
      ((List.pairwise_lt_range.imp Nat.le_of_lt).filter _) hincreasing
      ((native_perm dim order).symm.filter _)
  rw [hgroup, hsame]
  exact filter_eq_isInfix (pairwise_group dim order) _

/-- An element lists each of its nodes once, and the places of the nodes are listed in the inverse
order. First come the corners, in the order of the vertices of a cell; then all nodes that lie
between the ends of one axis, which are those of edges, then of two, and so on. The nodes of
one edge, face or interior follow each other in increasing order. -/
theorem native_by_entity (dim : Dimension) {order : Nat} (horder : 0 < order) :
    let nodes := List.range ((order + 1) ^ dim.value)
    let point n := Lattice.unflatten n (shape dim order)
    (native dim order).Perm nodes ∧
    (∀ i n : Nat, (native dim order)[i]? = some n ↔ (lexicographic dim order)[n]? = some i) ∧
    (native dim order).take (2 ^ dim.value) = (Shape.vertices dim).map (fun v =>
      Lattice.flatten (v.map (· * order)) (shape dim order)) ∧
    (native dim order).drop (2 ^ dim.value) = ((List.range dim.value).flatMap fun k =>
      (native dim order).filter fun n => interiorAxes order (point n) = k + 1) ∧
    ∀ n ∈ nodes, (nodes.filter fun n' => SameEntity order (point n) (point n')) <:+:
      native dim order := by
  intro nodes point
  have hlength : (corners dim order).length = 2 ^ dim.value := by
    rw [corners, List.length_map]
    cases dim <;> rfl
  have hsplit : native dim order = corners dim order ++ (List.range dim.value).flatMap fun k =>
      (native dim order).filter fun n => interiorAxes order (point n) = k + 1 := by
    have hall : ((native dim order).filter fun n =>
        (key dim order n).interiorAxes < dim.value + 1) = native dim order := by
      refine List.filter_eq_self.mpr fun n _ => decide_eq_true (Nat.lt_succ_iff.mpr ?_)
      refine (List.length_filter_le _ _).trans_eq ?_
      rw [Lattice.length_unflatten, shape, List.length_replicate]
    have hblocks := filter_lt_eq_flatMap (pairwise_interiorAxes dim order) (dim.value + 1)
    rw [hall, List.range_succ_eq_map, List.flatMap_cons, filter_vertices_native dim horder,
      List.flatMap_map] at hblocks
    exact hblocks
  refine ⟨native_perm dim order, fun i n => ⟨getElem?_inverse (native_perm dim order), fun h => ?_⟩,
    ?_, ?_, fun n _ => filter_sameEntity_isInfix dim order n⟩
  · have hn : n < (order + 1) ^ dim.value := by
      have hlt := (Array.getElem?_eq_some_iff.mp h).1
      rwa [lexicographic, size_inverse, (native_perm dim order).length_eq, List.length_range] at hlt
    have hplace := getElem?_native dim order hn
    rwa [Array.getD_eq_getD_getElem?, h, Option.getD_some] at hplace
  · rw [hsplit, List.take_left' hlength]
    rfl
  · nth_rewrite 1 [hsplit]
    exact List.drop_left' hlength

/-- The eight corners of a cubic element, and the two nodes inside its first edge, which follow each
other. -/
theorem native_by_entity_cubic :
    (native .three 3).take 8 = [0, 3, 15, 12, 48, 51, 63, 60] ∧ [1, 2] <:+: native .three 3 ∧
      [21, 22, 25, 26, 37, 38, 41, 42] <:+: native .three 3 := by
  obtain ⟨-, -, hcorners, -, hentities⟩ := native_by_entity .three (by decide : 0 < 3)
  exact ⟨hcorners, hentities 1 (by decide), hentities 21 (by decide)⟩

end NodeOrdering

end LowOrderRefinement
