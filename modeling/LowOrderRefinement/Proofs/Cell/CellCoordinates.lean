import LowOrderRefinement.Cell.Hexahedron
import LowOrderRefinement.Cell.Quadrilateral
import LowOrderRefinement.Proofs.Execution.Traversal

/-! Cells and tensors as lists of numbers. A cell is read from the coordinates of its vertices,
vertex by vertex: every list of the right length is that of one cell, and lists of another
length are refused. -/

namespace LowOrderRefinement

variable {α β : Type}

/-- The lists of length `n` are those of the values, and only these can be read. -/
structure Decodes (decode : List α → Checked β) (encode : β → List α) (n : Nat) : Prop where
  decode_encode : ∀ b, decode (encode b) = .ok b
  exists_encode : ∀ {xs}, xs.length = n → ∃ b, encode b = xs
  eq_error : ∀ {xs}, xs.length ≠ n → decode xs = .error .wrongLength

namespace Decodes

variable {decode : List α → Checked β} {encode : β → List α} {n : Nat}

theorem exists_ok (h : Decodes decode encode n) {xs : List α} (hxs : xs.length = n) :
    ∃ b, decode xs = .ok b := by
  obtain ⟨b, rfl⟩ := h.exists_encode hxs
  exact ⟨b, h.decode_encode b⟩

theorem length_of_ok (h : Decodes decode encode n) {xs : List α} {b : β}
    (hb : decode xs = .ok b) : xs.length = n := by
  by_cases hxs : xs.length = n
  · exact hxs
  · cases hb.symm.trans (h.eq_error hxs)

theorem eq_ok_iff (h : Decodes decode encode n) {xs : List α} {b : β} :
    decode xs = .ok b ↔ encode b = xs := by
  constructor
  · intro hb
    obtain ⟨c, rfl⟩ := h.exists_encode (h.length_of_ok hb)
    rw [Except.ok.inj (hb.symm.trans (h.decode_encode c))]
  · rintro rfl
    exact h.decode_encode b

theorem discard_congr (h : Decodes decode encode n) {xs ys : List α}
    (hlength : ys.length = xs.length) : discard (decode ys) = discard (decode xs) := by
  by_cases hxs : xs.length = n
  · obtain ⟨b, hb⟩ := h.exists_ok hxs
    obtain ⟨c, hc⟩ := h.exists_ok (hlength.trans hxs)
    rw [hb, hc]
    rfl
  · rw [h.eq_error hxs, h.eq_error (hlength ▸ hxs)]

/-- A change of coordinates that keeps their number, and does on the lists of values what `f` does
on the values, changes what is read by `f`. -/
theorem decode_map (h : Decodes decode encode n) {move : List α → List α} {f : β → β}
    (hlength : ∀ xs, (move xs).length = xs.length)
    (hmove : ∀ b, move (encode b) = encode (f b)) (xs : List α) :
    decode (move xs) = (decode xs).map f := by
  by_cases hxs : xs.length = n
  · obtain ⟨b, rfl⟩ := h.exists_encode hxs
    rw [hmove, h.decode_encode, h.decode_encode]
    rfl
  · rw [h.eq_error hxs, h.eq_error ((hlength xs).symm ▸ hxs)]
    rfl

end Decodes

theorem Quadrilateral.decodes : Decodes (α := α) ofCoordinates
    (fun cell => cell.vertices.flatMap Vec2.toList) 8 where
  decode_encode _ := rfl
  exists_encode {xs} hxs := by
    match xs, hxs with
    | [x0, y0, x1, y1, x2, y2, x3, y3], _ =>
      exact ⟨⟨⟨x0, y0⟩, ⟨x1, y1⟩, ⟨x2, y2⟩, ⟨x3, y3⟩⟩, rfl⟩
  eq_error hxs := by
    unfold ofCoordinates
    split
    · exact absurd rfl hxs
    · rfl

theorem Hexahedron.decodes : Decodes (α := α) ofCoordinates
    (fun cell => cell.vertices.flatMap Vec3.toList) 24 where
  decode_encode _ := rfl
  exists_encode {xs} hxs := by
    match xs, hxs with
    | [x0, y0, z0, x1, y1, z1, x2, y2, z2, x3, y3, z3,
        x4, y4, z4, x5, y5, z5, x6, y6, z6, x7, y7, z7], _ =>
      exact ⟨⟨⟨x0, y0, z0⟩, ⟨x1, y1, z1⟩, ⟨x2, y2, z2⟩, ⟨x3, y3, z3⟩,
        ⟨x4, y4, z4⟩, ⟨x5, y5, z5⟩, ⟨x6, y6, z6⟩, ⟨x7, y7, z7⟩⟩, rfl⟩
  eq_error hxs := by
    unfold ofCoordinates
    split
    · exact absurd rfl hxs
    · rfl

theorem Sym2.toList_inj {m m' : Sym2 α} (h : m.toList = m'.toList) : m = m' := by
  cases m
  cases m'
  simpa [toList] using h

theorem Sym3.toList_inj {m m' : Sym3 α} (h : m.toList = m'.toList) : m = m' := by
  cases m
  cases m'
  simpa [toList] using h

end LowOrderRefinement
