import VialQmk.Oled.Driver

/-!
# OLED driver - the window of a block

If the size of a block divides the width of the display, or is a multiple of it, the
commands of {lit}`calc_bounds` choose a window with the places of its bytes, in their order.

Main results:

- Theorem {lit}`runCommands_calcBounds`: the commands choose the window of the block.
- Theorems {lit}`mem_blockWindow` and {lit}`index_blockWindow`: the places of its bytes.
- Theorems {lit}`shown_block` and {lit}`shown_outside`: what the display shows after data is
  written there.
-/

namespace VialQmk
namespace Oled

namespace Geometry

/-- Blocks fit into pages, or pages into blocks. -/
def Aligned (g : Geometry) : Prop :=
  g.blockSize ∣ g.displayWidth ∨ g.displayWidth ∣ g.blockSize

instance (g : Geometry) : Decidable g.Aligned :=
  inferInstanceAs (Decidable (_ ∨ _))

end Geometry

/-- The window of the block that starts at the byte {lit}`a`. -/
def blockWindow (g : Geometry) (a : ℕ) : Window where
  left := g.columnOffset + a % g.displayWidth
  top := a / g.displayWidth
  right := g.columnOffset + a % g.displayWidth + (g.blockSize - 1) % g.displayWidth
  bottom := a / g.displayWidth + (g.blockSize - 1) / g.displayWidth

/-- What the display shows in the place of a byte of the buffer. -/
def shown (g : Geometry) (d : Raster UInt8) (j : ℕ) : UInt8 :=
  d.cells (g.columnOffset + j % g.displayWidth) (j / g.displayWidth)

section Blocks

variable {g : Geometry} {a j k : ℕ}

theorem width_blockWindow (g : Geometry) (a : ℕ) :
    (blockWindow g a).width = (g.blockSize - 1) % g.displayWidth + 1 := by
  unfold blockWindow Window.width
  rw [Nat.add_assoc _ _ 1, Nat.add_sub_cancel_left]

theorem height_blockWindow (g : Geometry) (a : ℕ) :
    (blockWindow g a).height = (g.blockSize - 1) / g.displayWidth + 1 := by
  unfold blockWindow Window.height
  rw [Nat.add_assoc _ _ 1, Nat.add_sub_cancel_left]

theorem valid_blockWindow (g : Geometry) (a : ℕ) : (blockWindow g a).Valid :=
  ⟨Nat.le_add_right _ _, Nat.le_add_right _ _⟩

/-- A block is part of a page, or consists of whole pages. -/
theorem block_cases (h : g.Aligned) (k : ℕ) :
    (g.blockSize * k % g.displayWidth + g.blockSize ≤ g.displayWidth ∧
      (g.blockSize - 1) % g.displayWidth = g.blockSize - 1 ∧
        (g.blockSize - 1) / g.displayWidth = 0) ∨
    (g.blockSize * k % g.displayWidth = 0 ∧
      (g.blockSize - 1) % g.displayWidth + 1 = g.displayWidth ∧
        ((g.blockSize - 1) / g.displayWidth + 1) * g.displayWidth = g.blockSize) := by
  have hsize := g.size_pos
  have hwidth := g.width_pos
  rcases h with ⟨c, hc⟩ | ⟨c, hc⟩
  · left
    have hcpos : 0 < c := by
      rcases Nat.eq_zero_or_pos c with rfl | hpos
      · omega
      · exact hpos
    have hle : g.blockSize ≤ g.displayWidth := by
      rw [hc]
      exact Nat.le_mul_of_pos_right _ hcpos
    refine ⟨?_, Nat.mod_eq_of_lt (by omega), Nat.div_eq_of_lt (by omega)⟩
    have hmod : k % c + 1 ≤ c := Nat.mod_lt k hcpos
    rw [hc, Nat.mul_mod_mul_left, ← Nat.mul_succ]
    exact Nat.mul_le_mul_left _ hmod
  · right
    obtain ⟨c, rfl⟩ := Nat.exists_eq_succ_of_ne_zero (n := c) (by
      rintro rfl
      omega)
    have hlast : g.blockSize - 1 = g.displayWidth - 1 + g.displayWidth * c := by
      rw [hc, Nat.mul_succ]
      omega
    refine ⟨?_, ?_, ?_⟩
    · rw [hc, Nat.mul_assoc, Nat.mul_mod_right]
    · rw [hlast, Nat.add_mul_mod_self_left, Nat.mod_eq_of_lt (by omega)]
      omega
    · rw [hlast, Nat.add_mul_div_left _ _ hwidth, Nat.div_eq_of_lt (by omega), hc,
        Nat.zero_add, Nat.mul_comm]

/-- The window has a place for each byte of the block. -/
theorem size_blockWindow (h : g.Aligned) (a : ℕ) :
    (blockWindow g a).width * (blockWindow g a).height = g.blockSize := by
  have hsize := g.size_pos
  rw [width_blockWindow, height_blockWindow]
  rcases block_cases h 0 with ⟨_, hmod, hdiv⟩ | ⟨_, hmod, hdiv⟩
  · rw [hmod, hdiv]
    omega
  · rw [hmod, Nat.mul_comm]
    exact hdiv

/-- The window has the places of the bytes of the block, and no other ones. -/
theorem mem_blockWindow (h : g.Aligned) :
    (blockWindow g (g.blockSize * k)).Mem (g.columnOffset + j % g.displayWidth)
        (j / g.displayWidth) ↔
      g.blockSize * k ≤ j ∧ j < g.blockSize * k + g.blockSize := by
  have hwidth := g.width_pos
  have hsize := g.size_pos
  have hj := Nat.div_add_mod j g.displayWidth
  have hjlt := Nat.mod_lt j hwidth
  have ha := Nat.div_add_mod (g.blockSize * k) g.displayWidth
  rcases block_cases h k with ⟨hin, hmod, hdiv⟩ | ⟨hzero, hmod, hdiv⟩
  · constructor
    · rintro ⟨hleft, hright, htop, hbottom⟩
      simp only [blockWindow, hmod, hdiv] at hleft hright htop hbottom
      have hpage : j / g.displayWidth = g.blockSize * k / g.displayWidth := by omega
      rw [hpage] at hj
      omega
    · rintro ⟨hle, hlt⟩
      have hpage : j / g.displayWidth = g.blockSize * k / g.displayWidth := by
        refine Nat.div_eq_of_lt_le ?_ ?_
        · rw [Nat.mul_comm]
          omega
        · rw [Nat.add_mul, Nat.one_mul, Nat.mul_comm]
          omega
      rw [hpage] at hj ⊢
      refine ⟨?_, ?_, ?_, ?_⟩ <;>
      · simp only [blockWindow, hmod, hdiv]
        omega
  · have hstart : g.blockSize * k / g.displayWidth * g.displayWidth = g.blockSize * k := by
      rw [Nat.mul_comm]
      omega
    have hend : (g.blockSize * k / g.displayWidth + (g.blockSize - 1) / g.displayWidth + 1) *
        g.displayWidth = g.blockSize * k + g.blockSize := by
      rw [Nat.add_assoc, Nat.add_mul, hstart, hdiv]
    have hfirst : g.blockSize * k / g.displayWidth ≤ j / g.displayWidth ↔
        g.blockSize * k ≤ j := by
      rw [Nat.le_div_iff_mul_le hwidth, hstart]
    have hlast : j / g.displayWidth <
        g.blockSize * k / g.displayWidth + (g.blockSize - 1) / g.displayWidth + 1 ↔
          j < g.blockSize * k + g.blockSize := by
      rw [Nat.div_lt_iff_lt_mul hwidth, hend]
    rw [← hfirst, ← hlast]
    constructor
    · rintro ⟨_, _, htop, hbottom⟩
      exact ⟨htop, Nat.lt_succ_of_le hbottom⟩
    · rintro ⟨htop, hbottom⟩
      refine ⟨?_, ?_, htop, Nat.le_of_lt_succ hbottom⟩ <;>
      · simp only [blockWindow, hzero]
        omega

/-- The bytes of the block have their places in this order. -/
theorem index_blockWindow (h : g.Aligned) (hle : g.blockSize * k ≤ j)
    (hlt : j < g.blockSize * k + g.blockSize) :
    (blockWindow g (g.blockSize * k)).index (g.columnOffset + j % g.displayWidth)
      (j / g.displayWidth) = j - g.blockSize * k := by
  have hj := Nat.div_add_mod j g.displayWidth
  have ha := Nat.div_add_mod (g.blockSize * k) g.displayWidth
  have hmem := (mem_blockWindow h).mpr ⟨hle, hlt⟩
  unfold Window.index
  rw [width_blockWindow]
  rcases block_cases h k with ⟨hin, hmod, hdiv⟩ | ⟨hzero, hmod, hdiv⟩
  · have htop := hmem.top_le
    have hbottom := hmem.le_bottom
    simp only [blockWindow, hdiv] at htop hbottom ⊢
    have hpage : j / g.displayWidth = g.blockSize * k / g.displayWidth := by omega
    rw [hpage, Nat.sub_self, Nat.zero_mul]
    rw [hpage] at hj
    omega
  · simp only [blockWindow, hzero, hmod]
    rw [Nat.sub_mul, Nat.mul_comm (j / g.displayWidth),
      Nat.mul_comm (g.blockSize * k / g.displayWidth)]
    have hpages : g.displayWidth * (g.blockSize * k / g.displayWidth) ≤
        g.displayWidth * (j / g.displayWidth) := Nat.mul_le_mul_left _ hmem.top_le
    omega

/-- Every block is in the buffer. -/
theorem block_le (hk : k < g.blockCount) : g.blockSize * k + g.blockSize ≤ g.matrixSize := by
  have hle : g.blockSize * (k + 1) ≤ g.blockSize * g.blockCount := Nat.mul_le_mul_left _ hk
  have hblocks := g.blocks_le
  rw [Nat.mul_comm] at hblocks
  rw [Nat.mul_succ] at hle
  unfold Geometry.matrixSize
  omega

/-- The last page of a block is one of the display. -/
theorem bottom_blockWindow (h : g.Aligned) (hk : k < g.blockCount) :
    g.blockSize * k / g.displayWidth + (g.blockSize - 1) / g.displayWidth < g.pages := by
  have hle := block_le hk
  have hwidth := g.width_pos
  have hsize := g.size_pos
  unfold Geometry.matrixSize at hle
  rcases block_cases h k with ⟨_, _, hdiv⟩ | ⟨hzero, _, hdiv⟩
  · rw [hdiv, Nat.add_zero, Nat.div_lt_iff_lt_mul hwidth]
    omega
  · have ha := Nat.div_add_mod (g.blockSize * k) g.displayWidth
    refine Nat.lt_of_succ_le (Nat.le_of_mul_le_mul_right ?_ hwidth)
    rw [Nat.succ_eq_add_one, Nat.add_assoc, Nat.add_mul, hdiv, Nat.mul_comm _ g.displayWidth]
    omega

/-- The columns of a block are bytes. -/
theorem right_blockWindow (h : g.Aligned) (k : ℕ) :
    g.blockSize * k % g.displayWidth + g.columnOffset + (g.blockSize - 1) % g.displayWidth <
      256 := by
  have hcolumns := g.columns_le
  have hsize := g.size_pos
  have hwidth := g.width_pos
  rcases block_cases h k with ⟨hin, hmod, _⟩ | ⟨hzero, hmod, _⟩ <;> omega

theorem toNat_ofNat_lt {n : ℕ} (h : n < 256) : (UInt8.ofNat n).toNat = n := by
  rw [UInt8.toNat_ofNat']
  exact Nat.mod_eq_of_lt h

/-- The commands choose the window of the block. -/
theorem runCommands_calcBounds (h : g.Aligned) (hk : k < g.blockCount) (d : Raster UInt8) :
    runCommands (calcBounds g k) d = d.select (blockWindow g (g.blockSize * k)) := by
  have hwidth := g.width_pos
  have hsize := g.size_pos
  have hpages := g.pages_le
  have hbottom := bottom_blockWindow h hk
  have hright := right_blockWindow h k
  have hcolumn : (UInt8.ofNat (g.blockSize * k % g.displayWidth)).toNat =
      g.blockSize * k % g.displayWidth := toNat_ofNat_lt (by omega)
  have hpage : (UInt8.ofNat (g.blockSize * k / g.displayWidth)).toNat =
      g.blockSize * k / g.displayWidth :=
    toNat_ofNat_lt (Nat.lt_of_le_of_lt (Nat.le_add_right _ _) (Nat.lt_of_lt_of_le hbottom hpages))
  have hfirst : (UInt8.ofNat (g.blockSize * k % g.displayWidth + g.columnOffset)).toNat =
      g.blockSize * k % g.displayWidth + g.columnOffset := toNat_ofNat_lt (by omega)
  have hround : g.blockSize + g.displayWidth - 1 = g.blockSize - 1 + g.displayWidth := by omega
  unfold calcBounds
  simp only [hcolumn, hpage, hfirst, hround, Nat.add_mod_right, Nat.add_div_right _ hwidth,
    Nat.succ_sub_one]
  have hlast : (UInt8.ofNat ((g.blockSize - 1) % g.displayWidth +
      (g.blockSize * k % g.displayWidth + g.columnOffset))).toNat =
        (g.blockSize - 1) % g.displayWidth +
          (g.blockSize * k % g.displayWidth + g.columnOffset) := toNat_ofNat_lt (by omega)
  have hend : (UInt8.ofNat ((g.blockSize - 1) / g.displayWidth +
      g.blockSize * k / g.displayWidth)).toNat =
        (g.blockSize - 1) / g.displayWidth + g.blockSize * k / g.displayWidth :=
    toNat_ofNat_lt (by omega)
  have hopcode : pageAddr ≠ columnAddr := by decide
  unfold runCommands
  rw [if_pos rfl]
  unfold runCommands
  rw [if_neg hopcode, if_pos rfl]
  unfold runCommands Raster.select blockWindow
  simp only [hfirst, hpage, hlast, hend]
  congr 2 <;> omega

/-- A block that is written is shown. -/
theorem shown_block (h : g.Aligned) (d : Raster UInt8) (buffer : Memory UInt8)
    (hle : g.blockSize * k ≤ j) (hlt : j < g.blockSize * k + g.blockSize) :
    shown g ((d.select (blockWindow g (g.blockSize * k))).puts
      (buffer.load (g.blockSize * k) g.blockSize)) j = buffer j := by
  have hindex := index_blockWindow h hle hlt
  unfold shown
  rw [Raster.cells_puts (valid_blockWindow g _) (by rw [size_blockWindow h, Memory.load_length])
    ((mem_blockWindow h).mpr ⟨hle, hlt⟩) (by rw [hindex, Memory.load_length]; omega)]
  rw [Memory.load_getElem, hindex, Nat.add_sub_of_le hle]

/-- Data that is written to a block is not shown elsewhere. -/
theorem shown_outside (h : g.Aligned) (d : Raster UInt8) {data : List UInt8}
    (hlen : data.length ≤ g.blockSize)
    (hout : ¬ (g.blockSize * k ≤ j ∧ j < g.blockSize * k + g.blockSize)) :
    shown g ((d.select (blockWindow g (g.blockSize * k))).puts data) j = shown g d j :=
  Raster.cells_puts_of_not (valid_blockWindow g _) (by rwa [size_blockWindow h])
    fun hin => hout ((mem_blockWindow h).mp hin.1)

end Blocks

end Oled
end VialQmk
