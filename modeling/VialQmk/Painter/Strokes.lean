import VialQmk.Library.Raster
import VialQmk.Painter.Lines

/-!
# Quantum Painter - strokes

All shapes are drawn as single pixels and as bars of pixels.  What the calls of the driver write
on the display is read from the calls: a bar writes the pixels of its window row by row, with the
pixels of the buffer over and over again.

Main results:

- Definition {lit}`writes`: the pixels that some calls write.
- Theorem {lit}`Device.Works.inOrder`: strokes in order make their calls.
- Theorem {lit}`Stroke.covers_iff`, {lit}`Stroke.value_iff`: where a stroke writes, and what.
-/

namespace VialQmk
namespace Painter

variable {π : Type*}

/-! ## What is written -/

/-- The pixels that calls write, where so many pixels of a window were written before. -/
def writesFrom : Window → ℕ → List (Call π) → List ((ℕ × ℕ) × π)
  | _, _, [] => []
  | _, _, .viewport left top right bottom :: calls =>
    writesFrom ⟨left, top, right, bottom⟩ 0 calls
  | w, n, .pixdata pixels :: calls =>
    (pixels.zipIdx n).map (fun (pixel, i) => (w.place i, pixel)) ++
      writesFrom w (n + pixels.length) calls

/-- The pixels that calls write. -/
def writes (calls : List (Call π)) : List ((ℕ × ℕ) × π) :=
  writesFrom ⟨0, 0, 0, 0⟩ 0 calls

/-! ## Strokes -/

/-- A pixel, or a bar between two corners. -/
inductive Stroke
  | dot (x y : ℕ)
  | bar (left top right bottom : ℕ)

namespace Stroke

/-- The pixels of the stroke. -/
def window : Stroke → Window
  | dot x y => ⟨x, y, x, y⟩
  | bar left top right bottom => ⟨min left right, min top bottom, max left right, max top bottom⟩

/-- The number of its pixels. -/
def size (s : Stroke) : ℕ :=
  s.window.width * s.window.height

/-- The width, the height and the number of its pixels are no larger than their types. -/
structure Fits (s : Stroke) : Prop where
  width_lt : s.window.width < 65536
  height_lt : s.window.height < 65536

/-- What is drawn for the stroke. -/
def action (d : Device π) : Stroke → Action π
  | dot x y => setpixelImpl d x y
  | bar left top right bottom => fillrectHelperImpl d left top right bottom

theorem valid_window (s : Stroke) : s.window.Valid := by
  cases s with
  | dot x y => exact ⟨Nat.le_refl x, Nat.le_refl y⟩
  | bar left top right bottom => exact ⟨by simp [window], by simp [window]⟩

theorem size_pos (s : Stroke) : 0 < s.size :=
  Nat.mul_pos s.valid_window.width_pos s.valid_window.height_pos

/-- The pixels of the buffer in pieces that fit in it. -/
def chunks (capacity : ℕ) (buffer : ℕ → π) : ℕ → ℕ → List (Call π)
  | 0, _ => []
  | n + 1, remaining =>
    if 0 < remaining then
      .pixdata ((List.range (min remaining capacity)).map buffer) ::
        chunks capacity buffer n (remaining - min remaining capacity)
    else []

/-- The calls of the stroke. -/
def calls (capacity : ℕ) (buffer : ℕ → π) (s : Stroke) : List (Call π) :=
  .viewport s.window.left s.window.top s.window.right s.window.bottom ::
    chunks capacity buffer s.size s.size

end Stroke

/-! ## Drawing strokes -/

section Works

variable {d : Device π}

theorem Device.Works.fillrectLoop (h : d.Works) (n remaining : ℕ) (g : Drawing π) :
    fillrectLoop d n remaining g =
      (⟨g.buffer, g.calls ++ Stroke.chunks d.numPixelsInBuffer g.buffer n remaining⟩,
        some true) := by
  induction n generalizing remaining g with
  | zero => simp [Painter.fillrectLoop, Stroke.chunks]
  | succ n ih =>
    unfold Painter.fillrectLoop Stroke.chunks
    by_cases hremaining : 0 < remaining
    · simp only [if_pos hremaining, pixdata, h.callDriver, ih, List.append_assoc,
        List.singleton_append]
    · simp only [if_neg hremaining, List.append_nil]

theorem Device.Works.action (h : d.Works) {s : Stroke} (hs : s.Fits) (g : Drawing π) :
    s.action d g =
      (⟨g.buffer, g.calls ++ s.calls d.numPixelsInBuffer g.buffer⟩, some true) := by
  cases s with
  | dot x y =>
    have hone : min 1 d.numPixelsInBuffer = 1 := Nat.min_eq_left d.numPixelsInBuffer_pos
    have hsize : (Stroke.dot x y).size = 1 := by
      simp [Stroke.size, Stroke.window, Window.width, Window.height]
    have hcalls : (Stroke.dot x y).calls d.numPixelsInBuffer g.buffer =
        [.viewport x y x y, .pixdata [g.buffer 0]] := by
      simp [Stroke.calls, hsize, Stroke.chunks, hone, Stroke.window]
    rw [hcalls]
    exact h.setpixelImpl x y g
  | bar left top right bottom =>
    obtain ⟨hwidth, hheight⟩ := hs
    have hsize : (Stroke.bar left top right bottom).size < 4294967296 :=
      Nat.mul_lt_mul'' hwidth hheight
    have hw : (max left right - min left right + 1) % 65536 =
        (Stroke.bar left top right bottom).window.width := by
      rw [← Nat.mod_eq_of_lt hwidth]
      simp only [Stroke.window, Window.width]
      congr 1
      omega
    have hh : (max top bottom - min top bottom + 1) % 65536 =
        (Stroke.bar left top right bottom).window.height := by
      rw [← Nat.mod_eq_of_lt hheight]
      simp only [Stroke.window, Window.height]
      congr 1
      omega
    have hremaining : (Stroke.bar left top right bottom).window.width *
        (Stroke.bar left top right bottom).window.height % 4294967296 =
        (Stroke.bar left top right bottom).size := Nat.mod_eq_of_lt hsize
    simp only [Stroke.action, fillrectHelperImpl, hw, hh, hremaining, h.fillrectLoop, h.callDriver,
      List.append_assoc]
    rfl

/-- Strokes in order make their calls. -/
theorem Device.Works.inOrder (h : d.Works) {strokes : List Stroke}
    (hstrokes : ∀ s ∈ strokes, s.Fits) (g : Drawing π) :
    inOrder (strokes.map (Stroke.action d)) g =
      (⟨g.buffer, g.calls ++ strokes.flatMap (Stroke.calls d.numPixelsInBuffer g.buffer)⟩,
        some true) := by
  induction strokes generalizing g with
  | nil => simp [Painter.inOrder]
  | cons s strokes ih =>
    have hfirst := h.action (hstrokes s List.mem_cons_self) g
    rw [List.map_cons, Painter.inOrder, hfirst]
    dsimp only
    rw [ih (fun s' hs' => hstrokes s' (List.mem_cons_of_mem s hs')), List.flatMap_cons,
      List.append_assoc]

end Works

/-! ## What strokes write -/

theorem zipIdx_range_map (buffer : ℕ → π) (w : Window) (n count : ℕ) :
    (((List.range count).map buffer).zipIdx n).map (fun (pixel, i) => (w.place i, pixel)) =
      (List.range count).map fun i => (w.place (n + i), buffer i) := by
  refine List.ext_getElem (by simp) fun i hi hi' => ?_
  simp

/-- Pixels in pieces are written like pixels at once. -/
theorem writesFrom_chunks {capacity : ℕ} (hcapacity : 0 < capacity) (buffer : ℕ → π) (w : Window)
    (n : ℕ) {fuel remaining : ℕ} (hfuel : remaining ≤ fuel) (rest : List (Call π)) :
    writesFrom w n (Stroke.chunks capacity buffer fuel remaining ++ rest) =
      (List.range remaining).map (fun i => (w.place (n + i), buffer (i % capacity))) ++
        writesFrom w (n + remaining) rest := by
  induction fuel generalizing n remaining with
  | zero =>
    obtain rfl := Nat.le_zero.mp hfuel
    rfl
  | succ fuel ih =>
    unfold Stroke.chunks
    by_cases hremaining : 0 < remaining
    · generalize ht : min remaining capacity = t
      have hsplit : List.range remaining =
          List.range t ++ (List.range (remaining - t)).map (t + ·) := by
        rw [← List.range_add, Nat.add_sub_cancel' (by omega)]
      have hpiece : (List.range t).map (fun i => (w.place (n + i), buffer i)) =
          (List.range t).map fun i => (w.place (n + i), buffer (i % capacity)) := by
        refine List.map_congr_left fun i hi => ?_
        rw [List.mem_range] at hi
        rw [Nat.mod_eq_of_lt (by omega)]
      have hagain : (List.range (remaining - t)).map
            (fun i => (w.place (n + t + i), buffer (i % capacity))) =
          (List.range (remaining - t)).map
            ((fun i => (w.place (n + i), buffer (i % capacity))) ∘ (t + ·)) := by
        refine List.map_congr_left fun i hi => ?_
        rw [List.mem_range] at hi
        have hfull : t = capacity := by omega
        simp only [Function.comp_apply]
        rw [← Nat.add_assoc, hfull, Nat.add_mod_left]
      rw [if_pos hremaining, List.cons_append, writesFrom, zipIdx_range_map, hpiece,
        ih (n + ((List.range t).map buffer).length) (by omega)]
      rw [List.length_map, List.length_range, hagain, hsplit, List.map_append, List.map_map,
        List.append_assoc, Nat.add_assoc n, Nat.add_sub_cancel' (by omega)]
    · obtain rfl : remaining = 0 := by omega
      rfl

/-- The pixels that strokes write. -/
def Stroke.writes (capacity : ℕ) (buffer : ℕ → π) (s : Stroke) : List ((ℕ × ℕ) × π) :=
  (List.range s.size).map fun i => (s.window.place i, buffer (i % capacity))

theorem writesFrom_strokes {capacity : ℕ} (hcapacity : 0 < capacity) (buffer : ℕ → π)
    (w : Window) (n : ℕ) (strokes : List Stroke) :
    writesFrom w n (strokes.flatMap (Stroke.calls capacity buffer)) =
      strokes.flatMap (Stroke.writes capacity buffer) := by
  induction strokes generalizing w n with
  | nil => rfl
  | cons s strokes ih =>
    rw [List.flatMap_cons, List.flatMap_cons, Stroke.calls, List.cons_append, writesFrom,
      writesFrom_chunks hcapacity buffer _ _ (Nat.le_refl _), ih]
    simp only [Nat.zero_add]
    rfl

namespace Stroke

/-- The places of a stroke. -/
def Covers (s : Stroke) (x y : ℕ) : Prop :=
  s.window.Mem x y

/-- How many pixels of the buffer are streamed. -/
def used (capacity : ℕ) (s : Stroke) : ℕ :=
  min s.size capacity

theorem covers_iff (capacity : ℕ) (buffer : ℕ → π) (s : Stroke) (x y : ℕ) :
    s.Covers x y ↔ ∃ pixel, ((x, y), pixel) ∈ s.writes capacity buffer := by
  constructor
  · intro hmem
    refine ⟨buffer (s.window.index x y % capacity), List.mem_map.mpr ⟨s.window.index x y, ?_, ?_⟩⟩
    · exact List.mem_range.mpr hmem.index_lt
    · rw [hmem.place_index]
  · rintro ⟨pixel, hmem⟩
    obtain ⟨i, -, hplace⟩ := List.mem_map.mp hmem
    have hmem := Window.mem_place s.valid_window i
    rw [(Prod.mk.inj hplace).1] at hmem
    exact hmem

/-- The pixels that are streamed. -/
theorem value_iff {capacity : ℕ} (hcapacity : 0 < capacity) (buffer : ℕ → π) (s : Stroke)
    (pixel : π) :
    (∃ p, (p, pixel) ∈ s.writes capacity buffer) ↔ ∃ i < s.used capacity, pixel = buffer i := by
  constructor
  · rintro ⟨p, hmem⟩
    obtain ⟨i, hi, hpixel⟩ := List.mem_map.mp hmem
    refine ⟨i % capacity, ?_, (Prod.mk.inj hpixel).2.symm⟩
    have hlt := Nat.mod_lt i hcapacity
    have hle := Nat.mod_le i capacity
    rw [List.mem_range] at hi
    unfold used
    omega
  · rintro ⟨i, hi, rfl⟩
    unfold used at hi
    refine ⟨s.window.place i, List.mem_map.mpr ⟨i, List.mem_range.mpr (by omega), ?_⟩⟩
    rw [Nat.mod_eq_of_lt (by omega)]

end Stroke

end Painter
end VialQmk
