import LowOrderRefinement.Embedding
import LowOrderRefinement.Proofs.Storage.Addressing

/-! The offsets of sub-cells in their element. The coordinates of a place in the grid of an
element are the digits of its offset to the base of the order, the first one being the least
significant. Coordinates below the order and offsets below the number of places correspond one
to one, and neither is lost by an overflow as long as the places can be counted by sizes. -/

namespace LowOrderRefinement

namespace Lattice

theorem invOn_unflatten (shape : List Nat) :
    Set.InvOn (unflatten · shape) (flatten · shape) {index | inBox index shape}
      (Set.Iio shape.prod) :=
  ⟨fun _ h => unflatten_flatten h, fun _ h => flatten_unflatten h⟩

theorem bijOn_unflatten (shape : List Nat) :
    Set.BijOn (unflatten · shape) (Set.Iio shape.prod) {index | inBox index shape} :=
  (bijOn_flatten shape).symm (invOn_unflatten shape).symm

/-- In the grid of an element the number of a point has its coordinates as digits. -/
theorem ofDigits_eq_flatten {index : List Nat} {d n : Nat}
    (h : inBox index (List.replicate d n)) :
    Nat.ofDigits n index = flatten index (List.replicate d n) := by
  rw [← flatten_replicate, (inBox_replicate.mp h).1]

theorem ofDigits_lt {index : List Nat} {d n : Nat} (h : inBox index (List.replicate d n)) :
    Nat.ofDigits n index < n ^ d := by
  have hlt := flatten_lt h
  rwa [List.prod_replicate, ← ofDigits_eq_flatten h] at hlt

end Lattice

namespace Embedding

variable {parent order : Nat} {place : List Nat}

/-! ### Offsets of places -/

/-- By Horner's rule the offset of a place is the number of the place in a cube. -/
theorem ofCoordinates_eq_map (parent order : Nat) (place : List Nat) :
    ofCoordinates parent order place =
      (Lattice.flattenChecked place (List.replicate place.length order)).map (mk parent) := by
  have hoffset : place.foldrM (fun k acc => do Size.add (← Size.mul acc order) k) 0 =
      Lattice.flattenChecked place (List.replicate place.length order) := by
    induction place with
    | nil => rfl
    | cons k place ih => rw [List.foldrM_cons, ih]; rfl
  rw [ofCoordinates, hoffset]
  rfl

/-- A place has its offset when the number with its coordinates as digits is a size. -/
theorem ofCoordinates_eq_ok (horder : 0 < order) {e : Embedding} :
    ofCoordinates parent order place = .ok e ↔
      Nat.ofDigits order place < Size.limit ∧ ⟨parent, Nat.ofDigits order place⟩ = e := by
  have hpos : ∀ n ∈ List.replicate place.length order, 0 < n := by
    intro n hn
    rwa [List.eq_of_mem_replicate hn]
  simp only [ofCoordinates_eq_map, map_eq_ok, Lattice.flattenChecked_eq_ok hpos,
    Lattice.flatten_replicate]
  constructor
  · rintro ⟨k, ⟨hsize, rfl⟩, rfl⟩
    exact ⟨hsize, rfl⟩
  · rintro ⟨hsize, rfl⟩
    exact ⟨_, ⟨hsize, rfl⟩, rfl⟩

theorem ofCoordinates_eq (parent : Nat) {order d : Nat} {place : List Nat}
    (hplace : Lattice.inBox place (List.replicate d order)) (hsize : order ^ d < Size.limit) :
    ofCoordinates parent order place =
      .ok ⟨parent, Lattice.flatten place (List.replicate d order)⟩ := by
  have hlength : place.length = d := (Lattice.inBox_replicate.mp hplace).1
  rw [ofCoordinates_eq_map, hlength, Lattice.flattenChecked_eq hplace
    (by rwa [List.prod_replicate])]
  rfl

/-! ### Places of offsets -/

variable {dim : Dimension}

theorem coordinates_eq (horder : 0 < order) (e : Embedding) :
    e.coordinates order dim =
      .ok (e.gridCoordinates order dim ++ List.replicate (3 - dim.value) 0) := by
  rw [coordinates, require, decide_eq_true horder]
  rfl

theorem gridCoordinates_ofDigits (hplace : Lattice.inBox place (List.replicate dim.value order)) :
    gridCoordinates ⟨parent, Nat.ofDigits order place⟩ order dim = place := by
  rw [gridCoordinates, Lattice.ofDigits_eq_flatten hplace, Lattice.unflatten_flatten hplace]

theorem ofDigits_gridCoordinates (e : Embedding) (he : e.offset < order ^ dim.value) :
    Lattice.inBox (e.gridCoordinates order dim) (List.replicate dim.value order) ∧
      Nat.ofDigits order (e.gridCoordinates order dim) = e.offset := by
  rw [← List.prod_replicate] at he
  have hplace := Lattice.inBox_unflatten (k := e.offset) (Nat.zero_lt_of_lt he)
  exact ⟨hplace, (Lattice.ofDigits_eq_flatten hplace).trans (Lattice.flatten_unflatten he)⟩

/-! ### Either way -/

/-- Places and offsets correspond when the places can be counted by sizes. -/
theorem bijOn_ofCoordinates (parent : Nat) {order d : Nat} (horder : 0 < order)
    (hfit : order ^ d ≤ Size.limit) :
    Set.BijOn (ofCoordinates parent order) {k | Lattice.inBox k (List.replicate d order)}
      ((fun offset => .ok ⟨parent, offset⟩) '' Set.Iio (order ^ d)) := by
  have hinj : Function.Injective fun offset => (.ok ⟨parent, offset⟩ : Checked Embedding) :=
    fun _ _ h => (Embedding.mk.inj (Except.ok.inj h)).2
  have hbij := hinj.injOn.bijOn_image.comp (Lattice.bijOn_flatten (List.replicate d order))
  rw [List.prod_replicate] at hbij
  refine hbij.congr fun k hk => Eq.symm ((ofCoordinates_eq_ok horder).mpr ⟨?_, ?_⟩)
  · exact (Lattice.ofDigits_lt hk).trans_le hfit
  · rw [Lattice.ofDigits_eq_flatten hk]

theorem bijOn_coordinates (parent : Nat) (dim : Dimension) {order : Nat} (horder : 0 < order) :
    Set.BijOn (fun offset => coordinates ⟨parent, offset⟩ order dim)
      (Set.Iio (order ^ dim.value))
      ((fun k => .ok (k ++ List.replicate (3 - dim.value) 0)) ''
        {k | Lattice.inBox k (List.replicate dim.value order)}) := by
  have hinj : Function.Injective fun k : List Nat =>
      (.ok (k ++ List.replicate (3 - dim.value) 0) : Checked (List Nat)) :=
    fun _ _ h => List.append_cancel_right (Except.ok.inj h)
  have hbij := hinj.injOn.bijOn_image.comp
    (Lattice.bijOn_unflatten (List.replicate dim.value order))
  rw [List.prod_replicate] at hbij
  exact hbij.congr fun offset _ => (coordinates_eq horder ⟨parent, offset⟩).symm

theorem coordinates_of_ofCoordinates (horder : 0 < order)
    (hplace : Lattice.inBox place (List.replicate dim.value order)) {e : Embedding}
    (he : ofCoordinates parent order place = .ok e) :
    e.parent = parent ∧ e.offset < order ^ dim.value ∧
      e.coordinates order dim = .ok (place ++ List.replicate (3 - dim.value) 0) := by
  obtain ⟨-, rfl⟩ := (ofCoordinates_eq_ok horder).mp he
  refine ⟨rfl, Lattice.ofDigits_lt hplace, ?_⟩
  rw [coordinates_eq horder, gridCoordinates_ofDigits hplace]

theorem ofCoordinates_gridCoordinates (horder : 0 < order) (e : Embedding)
    (he : e.offset < order ^ dim.value) (hsize : e.offset < Size.limit) :
    ofCoordinates e.parent order (e.gridCoordinates order dim) = .ok e := by
  obtain ⟨-, hdigits⟩ := ofDigits_gridCoordinates e he
  rw [ofCoordinates_eq_ok horder, hdigits]
  exact ⟨hsize, rfl⟩

/-- A place in the grid of an element has an offset when that is a size, as always when the places
can be counted by sizes. The offset is below the number of places, the parent is the given one, and
the coordinates read off are those of the place, filled up with zeros. The coordinates read off an
offset below the number of places lie in the grid and lead back to the offset. When the places can
be counted by sizes, coordinates and offsets are in bijection either way. -/
theorem offset_roundtrip (dim : Dimension) {order : Nat} (horder : 0 < order) (parent : Nat) :
    let grid := List.replicate dim.value order
    let padded (k : List Nat) := k ++ List.replicate (3 - dim.value) 0
    (∀ k, Lattice.inBox k grid →
      ((∃ e, ofCoordinates parent order k = .ok e) ↔ Nat.ofDigits order k < Size.limit) ∧
      ∀ e, ofCoordinates parent order k = .ok e → e.parent = parent ∧
        e.offset < order ^ dim.value ∧ e.coordinates order dim = .ok (padded k)) ∧
    (∀ offset < order ^ dim.value, offset < Size.limit → ∃ xs,
      coordinates ⟨parent, offset⟩ order dim = .ok xs ∧ xs = padded (xs.take dim.value) ∧
        Lattice.inBox (xs.take dim.value) grid ∧
        ofCoordinates parent order (xs.take dim.value) = .ok ⟨parent, offset⟩) ∧
    (order ^ dim.value ≤ Size.limit →
      Set.BijOn (ofCoordinates parent order) {k | Lattice.inBox k grid}
        ((fun offset => .ok ⟨parent, offset⟩) '' Set.Iio (order ^ dim.value)) ∧
      Set.BijOn (fun offset => coordinates ⟨parent, offset⟩ order dim)
        (Set.Iio (order ^ dim.value)) ((fun k => .ok (padded k)) '' {k | Lattice.inBox k grid})) := by
  intro grid padded
  refine ⟨fun k hk => ⟨?_, fun e he => coordinates_of_ofCoordinates horder hk he⟩,
    fun offset hoffset hsize => ?_,
    fun hfit => ⟨bijOn_ofCoordinates parent horder hfit, bijOn_coordinates parent dim horder⟩⟩
  · simp only [ofCoordinates_eq_ok horder, exists_and_left, exists_eq', and_true]
  · obtain ⟨hplace, -⟩ := ofDigits_gridCoordinates ⟨parent, offset⟩ hoffset
    have htake : (padded (gridCoordinates ⟨parent, offset⟩ order dim)).take dim.value =
        gridCoordinates ⟨parent, offset⟩ order dim :=
      List.take_left' (Lattice.inBox_replicate.mp hplace).1
    refine ⟨_, coordinates_eq horder _, congrArg padded htake.symm, ?_, ?_⟩
    · rwa [htake]
    · rw [htake]
      exact ofCoordinates_gridCoordinates horder ⟨parent, offset⟩ hoffset hsize

/-- In an element of order four the place `[3, 1, 2]` has the offset 39. A square of places that are
one more than can be counted by sizes still has an offset for its last place. -/
theorem offset_roundtrip_last :
    0 < 4 ∧ Lattice.inBox [3, 1, 2] [4, 4, 4] ∧
      ofCoordinates 7 4 [3, 1, 2] = .ok ⟨7, 39⟩ ∧
      coordinates ⟨7, 39⟩ 4 .three = .ok [3, 1, 2] ∧
      ∃ xs, coordinates ⟨5, 2 ^ 64 - 1⟩ (2 ^ 32) .two = .ok xs ∧
        ofCoordinates 5 (2 ^ 32) (xs.take 2) = .ok ⟨5, 2 ^ 64 - 1⟩ := by
  obtain ⟨hplaces, -, -⟩ := @offset_roundtrip .three 4 (by decide) 7
  obtain ⟨hexists, hread⟩ := hplaces [3, 1, 2] (by decide)
  obtain ⟨e, he⟩ := hexists.mpr (by decide)
  obtain rfl : e = ⟨7, 39⟩ := Except.ok.inj (he.symm.trans rfl)
  obtain ⟨-, hoffsets, -⟩ := @offset_roundtrip .two (2 ^ 32) (by decide) 5
  obtain ⟨xs, hxs, -, -, hback⟩ := hoffsets (2 ^ 64 - 1) (by decide) (by decide)
  exact ⟨by decide, by decide, he, (hread _ he).2.2, xs, hxs, hback⟩

end Embedding

end LowOrderRefinement
