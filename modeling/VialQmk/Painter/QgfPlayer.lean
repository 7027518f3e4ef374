import VialQmk.Painter.QgfReader
import Mathlib.Logic.Function.Iterate

/-!
# Quantum Painter - drawing frames on a panel

To draw a frame is to open a window on the panel, and to send the pixels of the frame row by row.
The bytes come from the decoder and are put into a buffer, which is sent whenever it is full.

Main results:

- Definition {lit}`Panel`, {lit}`drawImage`, {lit}`renderAnimationState`: the panel, and the
  functions that draw on it.
- Theorem {lit}`animate_panel`: an animation draws frame after frame, up to a delay of zero.
- Theorem {lit}`appender_gives`: the pixels that get to the panel, whatever the size of the buffer.
- Theorem {lit}`Panel.puts_picture`, {lit}`Panel.puts_outside`: where the pixels are.
-/

namespace VialQmk
namespace Painter

/-! ## The panel -/

/-- A panel: its picture, the window that is drawn to, and how many pixels have come since it was
opened. -/
structure Panel where
  picture : ℕ → ℕ → Rgb
  left : ℕ
  top : ℕ
  right : ℕ
  bottom : ℕ
  sent : ℕ

/-- {lit}`viewport` -/
def Panel.viewport (p : Panel) (left top right bottom : ℕ) : Panel :=
  { p with left := left, top := top, right := right, bottom := bottom, sent := 0 }

/-- Where a pixel goes: to the rows of the window one by one, and then from the start again. -/
def Panel.place (p : Panel) (n : ℕ) : ℕ × ℕ :=
  let width := p.right + 1 - p.left
  let height := p.bottom + 1 - p.top
  (p.left + n % width, p.top + n / width % height)

/-- The next pixel. -/
def Panel.put (p : Panel) (c : Rgb) : Panel :=
  { p with
    picture := fun x y => if (x, y) = p.place p.sent then c else p.picture x y
    sent := p.sent + 1 }

/-- The bytes that come from the bus, three for a pixel. -/
def Panel.receive : Panel → List UInt8 → Panel
  | p, r :: g :: b :: rest => (p.put (r, g, b)).receive rest
  | p, _ => p

/-- {lit}`native_bits_per_pixel` -/
def nativeBitsPerPixel : ℕ := 24

/-- {lit}`qp_tft_panel_pixdata` -/
def Panel.pixdata (p : Panel) (pixelData : List UInt8) (nativePixelCount : ℕ) : Panel :=
  p.receive (pixelData.take (nativePixelCount * nativeBitsPerPixel / 8))

/-! ## Sending bytes -/

/-- {lit}`QUANTUM_PAINTER_PIXDATA_BUFFER_SIZE`, with the assertion about it -/
structure PixdataBuffer where
  size : ℕ
  size_pos : 0 < size
  size_mod : size % 16 = 0

/-- {lit}`qp_internal_num_pixels_in_buffer` -/
def PixdataBuffer.numPixels (buffer : PixdataBuffer) : ℕ :=
  buffer.size * 8 / nativeBitsPerPixel

/-- {lit}`qp_internal_byte_output_state_t`, with the bytes in the buffer up to
{lit}`byte_write_pos`, and the panel -/
structure OutputState where
  panel : Panel
  buffer : List UInt8
  maxBytes : ℕ

/-- {lit}`qp_internal_byte_appender` -/
def byteAppender (o : OutputState) (byteval : UInt8) : OutputState × Bool :=
  let buffer := o.buffer ++ [byteval]
  if buffer.length = o.maxBytes then
    ({ o with
      panel := o.panel.pixdata buffer (buffer.length * 8 / nativeBitsPerPixel), buffer := [] }, true)
  else ({ o with buffer := buffer }, true)

section Sending

variable {σ ω : Type}

/-- {lit}`qp_internal_send_bytes` -/
def sendBytes (input : σ → σ × Int) (output : ω → UInt8 → ω × Bool) :
    ℕ → σ → ω → σ × ω × Bool
  | 0, s, o => (s, o, true)
  | remaining + 1, s, o =>
    let byteval := input s
    if byteval.2 < 0 then (byteval.1, o, false)
    else
      let res := output o (UInt8.ofInt byteval.2)
      if res.2 = false then (byteval.1, res.1, false)
      else sendBytes input output remaining byteval.1 res.1

/-- {lit}`qp_internal_appender` for an image in the format of the panel, in which the number of
bits is one of 32 bits -/
def appender (buffer : PixdataBuffer) (panel : Panel) (bpp pixelCount : ℕ)
    (input : σ → σ × Int) (s : σ) : σ × Panel × Bool :=
  if bpp ≠ nativeBitsPerPixel then (s, panel, false)
  else
    let byteCount := pixelCount * bpp % 4294967296 / 8
    let res := sendBytes input byteAppender byteCount s
      ⟨panel, [], buffer.numPixels * nativeBitsPerPixel / 8⟩
    let o := res.2.1
    if res.2.2 = true ∧ 0 < o.buffer.length then
      (res.1, o.panel.pixdata o.buffer (o.buffer.length * 8 / nativeBitsPerPixel), true)
    else (res.1, o.panel, res.2.2)

end Sending

/-! ## Drawing -/

/-- A number as one of 16 bits. -/
def toUInt16 (i : ℤ) : ℕ :=
  (i % 65536).toNat

/-- {lit}`qp_drawimage_recolor_impl`, with its {lit}`frame_info` if it is successful -/
def drawImage (buffer : PixdataBuffer) (panel : Panel) (x y : ℕ) (image : ImageHandle)
    (frameNumber : ℕ) : ImageHandle × Panel × Option FrameInfo :=
  match prepareFrame image.stream frameNumber with
  | (s, none) => ({ image with stream := s }, panel, none)
  | (s, some info) =>
    let l := if info.isDelta = true then toUInt16 (x + info.left) else x
    let t := if info.isDelta = true then toUInt16 (y + info.top) else y
    let r := if info.isDelta = true then toUInt16 (x + info.right)
      else toUInt16 (x + image.width - 1)
    let b := if info.isDelta = true then toUInt16 (y + info.bottom)
      else toUInt16 (y + image.height - 1)
    let pixelCount := ((((r : ℤ) - l + 1) * (b - t + 1)) % 4294967296).toNat
    let panel := panel.viewport l t r b
    match prepareInputState (inputState s) info.compressionScheme with
    | none => ({ image with stream := s }, panel, none)
    | some (next, input) =>
      let res := appender buffer panel info.bpp pixelCount next input
      ({ image with stream := res.1.srcStream }, res.2.1, if res.2.2 = true then some info else none)

/-- The frames of an image drawn one after the other, and then from the first one again; the
information about the one that came last, if it was drawn. -/
def drawFrames (buffer : PixdataBuffer) (panel : Panel) (x y : ℕ) (image : ImageHandle) :
    ℕ → ImageHandle × Panel × Option FrameInfo
  | 0 => (image, panel, none)
  | n + 1 =>
    let drawn := drawFrames buffer panel x y image n
    drawImage buffer drawn.2.1 x y drawn.1 (n % image.frameCount)

/-- {lit}`animation_state_t`, with the panel, and whether the executor will call it again -/
structure AnimationState where
  panel : Panel
  x : ℕ
  y : ℕ
  image : ImageHandle
  frameNumber : ℕ
  active : Bool

/-- {lit}`qp_render_animation_state`, and what its callers do with the result: it is not called
again if it fails, nor after a delay of zero. -/
def renderAnimationState (buffer : PixdataBuffer) (state : AnimationState) : AnimationState :=
  if state.active = false then state
  else
    match drawImage buffer state.panel state.x state.y state.image state.frameNumber with
    | (image, panel, none) => { state with panel := panel, image := image, active := false }
    | (image, panel, some frameInfo) =>
      { state with
        panel := panel
        image := image
        frameNumber :=
          if state.image.frameCount ≤ state.frameNumber + 1 then 0 else state.frameNumber + 1
        active := frameInfo.delay != 0 }

/-- {lit}`qp_animate`, after some rounds -/
def animate (buffer : PixdataBuffer) (panel : Panel) (x y : ℕ) (image : ImageHandle) (rounds : ℕ) :
    AnimationState :=
  (renderAnimationState buffer)^[rounds] ⟨panel, x, y, image, 0, true⟩

section Animations

variable {buffer : PixdataBuffer} {panel : Panel} {x y : ℕ} {image : ImageHandle}

theorem drawImage_frameCount (frameNumber : ℕ) :
    (drawImage buffer panel x y image frameNumber).1.frameCount = image.frameCount := by
  unfold drawImage
  split
  · rfl
  · dsimp only
    split
    · rfl
    · rfl

theorem drawFrames_frameCount (n : ℕ) :
    (drawFrames buffer panel x y image n).1.frameCount = image.frameCount := by
  induction n with
  | zero => rfl
  | succ n ih =>
    rw [drawFrames, drawImage_frameCount, ih]

/-- The number of the next frame. -/
theorem next_mod {n : ℕ} (hn : 0 < n) (round : ℕ) :
    (if n ≤ round % n + 1 then 0 else round % n + 1) = (round + 1) % n := by
  have hlt := Nat.mod_lt round hn
  rw [← Nat.mod_add_mod round n 1]
  split_ifs with hle
  · have hlast : round % n + 1 = n := by omega
    rw [hlast, Nat.mod_self]
  · have hnext : round % n + 1 < n := by omega
    rw [Nat.mod_eq_of_lt hnext]

/-- The animation goes on as long as the frames are drawn and have a delay. -/
theorem animate_eq (hcount : 0 < image.frameCount) {round : ℕ}
    (hdelay : ∀ last < round, ∃ info, (drawFrames buffer panel x y image (last + 1)).2.2 =
      some info ∧ info.delay ≠ 0) :
    animate buffer panel x y image round =
      ⟨(drawFrames buffer panel x y image round).2.1, x, y,
        (drawFrames buffer panel x y image round).1, round % image.frameCount, true⟩ := by
  induction round with
  | zero => simp only [animate, Function.iterate_zero, id, drawFrames, Nat.zero_mod]
  | succ round ih =>
    rcases hdelay round (Nat.lt_succ_self round) with ⟨info, hinfo, hdelay'⟩
    have hgoes : (info.delay != 0) = true := bne_iff_ne.mpr hdelay'
    have hlast := ih fun last hlt => hdelay last (Nat.lt_succ_of_lt hlt)
    have hstep : drawFrames buffer panel x y image (round + 1) =
        drawImage buffer (drawFrames buffer panel x y image round).2.1 x y
          (drawFrames buffer panel x y image round).1 (round % image.frameCount) := by
      rw [drawFrames]
    rw [hstep] at hinfo ⊢
    unfold animate at hlast ⊢
    rw [Function.iterate_succ_apply', hlast, renderAnimationState, if_neg (by simp)]
    dsimp only
    generalize drawImage buffer (drawFrames buffer panel x y image round).2.1 x y
      (drawFrames buffer panel x y image round).1 (round % image.frameCount) = drawn at hinfo ⊢
    obtain ⟨image', panel', info'⟩ := drawn
    dsimp only at hinfo ⊢
    subst hinfo
    dsimp only
    rw [hgoes, drawFrames_frameCount, next_mod hcount]

/-- The panel of an animation whose frames so far have had a delay. -/
theorem animate_panel (hcount : 0 < image.frameCount) {round : ℕ}
    (hdelay : ∀ last < round, ∃ info, (drawFrames buffer panel x y image (last + 1)).2.2 =
      some info ∧ info.delay ≠ 0) :
    (animate buffer panel x y image (round + 1)).panel =
      (drawFrames buffer panel x y image (round + 1)).2.1 := by
  have hlast := animate_eq hcount hdelay
  unfold animate at hlast ⊢
  rw [Function.iterate_succ_apply', hlast, renderAnimationState, if_neg (by simp)]
  rw [drawFrames]
  dsimp only
  generalize drawImage buffer (drawFrames buffer panel x y image round).2.1 x y
    (drawFrames buffer panel x y image round).1 (round % image.frameCount) = drawn
  obtain ⟨image', panel', info⟩ := drawn
  cases info with
  | none => rfl
  | some info => rfl

end Animations

/-! ## Pixels on the panel -/

/-- Several pixels. -/
def Panel.puts (p : Panel) (cs : List Rgb) : Panel :=
  cs.foldl Panel.put p

section Pixels

variable {p : Panel} {cs : List Rgb}

@[simp]
theorem Panel.place_put (p : Panel) (c : Rgb) (n : ℕ) : (p.put c).place n = p.place n :=
  rfl

@[simp]
theorem Panel.place_puts (p : Panel) (cs : List Rgb) (n : ℕ) :
    (p.puts cs).place n = p.place n := by
  induction cs generalizing p with
  | nil => rfl
  | cons c cs ih => exact ih (p.put c)

@[simp]
theorem Panel.sent_puts (p : Panel) (cs : List Rgb) : (p.puts cs).sent = p.sent + cs.length := by
  induction cs generalizing p with
  | nil => rfl
  | cons c cs ih =>
    rw [puts, List.foldl_cons]
    change ((p.put c).puts cs).sent = _
    rw [ih, List.length_cons, put]
    dsimp only
    omega

/-- No other place changes. -/
theorem Panel.puts_outside {x y : ℕ} (h : ∀ k < cs.length, p.place (p.sent + k) ≠ (x, y)) :
    (p.puts cs).picture x y = p.picture x y := by
  induction cs generalizing p with
  | nil => rfl
  | cons c cs ih =>
    have hfirst : (p.put c).picture x y = p.picture x y :=
      if_neg fun heq => h 0 (Nat.succ_pos _) heq.symm
    rw [puts, List.foldl_cons]
    change ((p.put c).puts cs).picture x y = _
    rw [ih, hfirst]
    intro k hk
    have hnext := h (k + 1) (Nat.succ_lt_succ hk)
    rw [Nat.add_comm k, ← Nat.add_assoc] at hnext
    exact hnext

/-- Each pixel is at its place, unless another one comes there later. -/
theorem Panel.puts_picture {k x y : ℕ} (hk : k < cs.length) (hplace : p.place (p.sent + k) = (x, y))
    (hlater : ∀ j, k < j → j < cs.length → p.place (p.sent + j) ≠ (x, y)) :
    (p.puts cs).picture x y = cs[k] := by
  induction cs generalizing p k with
  | nil => exact absurd hk (Nat.not_lt_zero k)
  | cons c cs ih =>
    have hshift : ∀ j, (p.put c).place ((p.put c).sent + j) = p.place (p.sent + (j + 1)) := by
      intro j
      rw [place_put, put]
      dsimp only
      rw [Nat.add_assoc, Nat.add_comm 1]
    rw [puts, List.foldl_cons]
    change ((p.put c).puts cs).picture x y = _
    cases k with
    | zero =>
      rw [puts_outside]
      · exact if_pos hplace.symm
      · intro j hj
        rw [hshift]
        exact hlater (j + 1) (Nat.succ_pos j) (Nat.succ_lt_succ hj)
    | succ k =>
      apply ih (Nat.lt_of_succ_lt_succ hk)
      · rw [hshift]
        exact hplace
      · intro j hlt hj
        rw [hshift]
        exact hlater (j + 1) (Nat.succ_lt_succ hlt) (Nat.succ_lt_succ hj)

/-! ## Bytes on the bus -/

/-- Whole pixels in some bytes. -/
theorem Panel.receive_append {bytes : List UInt8} (h : 3 ∣ bytes.length) (rest : List UInt8) :
    p.receive (bytes ++ rest) = (p.receive bytes).receive rest := by
  rcases h with ⟨n, hn⟩
  induction n generalizing p bytes with
  | zero =>
    rw [List.length_eq_zero_iff.mp hn]
    rfl
  | succ n ih =>
    match bytes, hn with
    | r :: g :: b :: bytes, hn =>
      have hlength : bytes.length = 3 * n := by
        simp only [List.length_cons] at hn
        omega
      change (p.put (r, g, b)).receive (bytes ++ rest) = _
      rw [ih hlength]
      rfl

/-- The pixels in the first bytes. -/
theorem Panel.receive_take (p : Panel) (cs : List Rgb) (n : ℕ) :
    p.receive ((cs.flatMap rgbBytes).take n) = p.puts (cs.take (n / 3)) := by
  induction cs generalizing p n with
  | nil => simp [receive, puts]
  | cons c cs ih =>
    match n with
    | 0 => rfl
    | 1 => rfl
    | 2 => rfl
    | n + 3 =>
      have hdiv : (n + 3) / 3 = n / 3 + 1 := Nat.add_div_right n (by decide)
      rw [hdiv, List.take_succ_cons]
      exact ih (p.put c) n

/-- What is left of a pixel does not count. -/
theorem Panel.receive_whole (p : Panel) (bytes : List UInt8) :
    p.receive (bytes.take (3 * (bytes.length / 3))) = p.receive bytes := by
  have hsplit := List.take_append_drop (3 * (bytes.length / 3)) bytes
  have hrest : ∀ q : Panel, q.receive (bytes.drop (3 * (bytes.length / 3))) = q := by
    intro q
    have hshort : (bytes.drop (3 * (bytes.length / 3))).length < 3 := by
      rw [List.length_drop]
      omega
    match bytes.drop (3 * (bytes.length / 3)), hshort with
    | [], _ => rfl
    | [_], _ => rfl
    | [_, _], _ => rfl
  conv_rhs => rw [← hsplit, receive_append (by rw [List.length_take]; omega), hrest]

theorem Panel.pixdata_whole (p : Panel) (bytes : List UInt8) :
    p.pixdata bytes (bytes.length * 8 / nativeBitsPerPixel) = p.receive bytes := by
  have hcount : bytes.length * 8 / nativeBitsPerPixel * nativeBitsPerPixel / 8 =
      3 * (bytes.length / 3) := by
    rw [nativeBitsPerPixel]
    omega
  rw [pixdata, hcount, receive_whole]

end Pixels

/-! ## The buffer -/

/-- Some bytes have come: the panel has got most of them, in whole pixels, and the others are in
the buffer. -/
structure OutputState.Holds (o : OutputState) (p : Panel) (bytes : List UInt8) : Prop where
  sent : ∃ sent, bytes = sent ++ o.buffer ∧ 3 ∣ sent.length ∧ o.panel = p.receive sent
  room : o.buffer.length < o.maxBytes
  whole : 3 ∣ o.maxBytes

section Buffers

variable {o : OutputState} {p : Panel} {bytes : List UInt8}

theorem OutputState.Holds.append (h : o.Holds p bytes) (c : UInt8) :
    (byteAppender o c).2 = true ∧ (byteAppender o c).1.Holds p (bytes ++ [c]) := by
  rcases h.sent with ⟨sent, rfl, hdvd, hpanel⟩
  by_cases hfull : (o.buffer ++ [c]).length = o.maxBytes
  · have hstep : byteAppender o c =
        ({ o with panel := o.panel.receive (o.buffer ++ [c]), buffer := [] }, true) := by
      rw [byteAppender, if_pos hfull, Panel.pixdata_whole]
    rw [hstep]
    refine ⟨rfl, ⟨sent ++ (o.buffer ++ [c]), by simp, ?_, ?_⟩, ?_, h.whole⟩
    · rw [List.length_append, hfull]
      exact (Nat.dvd_add_right hdvd).mpr h.whole
    · rw [Panel.receive_append hdvd, hpanel]
    · exact Nat.zero_lt_of_lt h.room
  · have hstep : byteAppender o c = ({ o with buffer := o.buffer ++ [c] }, true) := by
      rw [byteAppender, if_neg hfull]
    have hroom := h.room
    rw [List.length_append, List.length_singleton] at hfull
    rw [hstep]
    refine ⟨rfl, ⟨sent, by simp, hdvd, hpanel⟩, ?_, h.whole⟩
    change (o.buffer ++ [c]).length < o.maxBytes
    rw [List.length_append, List.length_singleton]
    omega

variable {σ : Type} {next : σ → σ × Int} {s s' : σ} {more : List UInt8}

/-- The bytes of a decoder get to the buffer. -/
theorem sendBytes_gives (hgives : Gives next s more s') (h : o.Holds p bytes) :
    ∃ o', sendBytes next byteAppender more.length s o = (s', o', true) ∧
      o'.Holds p (bytes ++ more) := by
  induction more generalizing s o bytes with
  | nil =>
    rw [gives_nil] at hgives
    subst hgives
    exact ⟨o, rfl, (List.append_nil bytes).symm ▸ h⟩
  | cons c more ih =>
    rw [gives_cons] at hgives
    rcases h.append c with ⟨htrue, hnext⟩
    rcases ih hgives.2 hnext with ⟨o', hsend, hholds⟩
    refine ⟨o', ?_, ?_⟩
    · rw [List.length_cons, sendBytes]
      dsimp only
      rw [hgives.1, if_neg (by omega), ofInt_toNat, htrue, if_neg (by decide), hsend]
    · rw [List.append_assoc] at hholds
      exact hholds

/-- What is sent of an image is what the decoder gives. -/
theorem appender_gives (buffer : PixdataBuffer) (panel : Panel) {pixelCount : ℕ}
    (hgives : Gives next s more s')
    (hcount : more.length = pixelCount * 24 % 4294967296 / 8) :
    appender buffer panel 24 pixelCount next s = (s', panel.receive more, true) := by
  have hmax : buffer.numPixels * nativeBitsPerPixel / 8 = 3 * (buffer.size * 8 / 24) := by
    rw [PixdataBuffer.numPixels, nativeBitsPerPixel]
    omega
  have hpos : 0 < 3 * (buffer.size * 8 / 24) := by
    have hsize := buffer.size_pos
    have hmod := buffer.size_mod
    omega
  have hfirst : OutputState.Holds ⟨panel, [], buffer.numPixels * nativeBitsPerPixel / 8⟩ panel [] :=
    ⟨⟨[], rfl, Nat.dvd_zero 3, rfl⟩, hmax ▸ hpos, hmax ▸ Nat.dvd_mul_right 3 _⟩
  rcases sendBytes_gives hgives hfirst with ⟨o', hsend, hholds⟩
  rw [List.nil_append] at hholds
  rcases hholds.sent with ⟨sent, hmore, hdvd, hpanel⟩
  have hall : o'.panel.receive o'.buffer = panel.receive more := by
    rw [hmore, Panel.receive_append hdvd, hpanel]
  have hbpp : ¬ 24 ≠ nativeBitsPerPixel := by decide
  rw [appender, if_neg hbpp]
  dsimp only
  rw [← hcount, hsend]
  dsimp only
  by_cases hleft : 0 < o'.buffer.length
  · rw [if_pos ⟨rfl, hleft⟩, Panel.pixdata_whole, hall]
  · rw [if_neg fun h => hleft h.2]
    rw [List.length_eq_zero_iff.mp (Nat.eq_zero_of_not_pos hleft)] at hall
    rw [← hall]
    rfl

end Buffers

/-! ## Windows -/

section Windows

variable {p : Panel} {im : Image} {l t : ℕ}

/-- A window of the size of an image. -/
def Panel.window (p : Panel) (l t : ℕ) (im : Image) : Panel :=
  p.viewport l t (l + im.width - 1) (t + im.height - 1)

theorem Panel.place_window (hwidth : 0 < im.width) (hheight : 0 < im.height) (n : ℕ) :
    (p.window l t im).place n = (l + n % im.width, t + n / im.width % im.height) := by
  have hsize : ∀ {a size : ℕ}, 0 < size → a + size - 1 + 1 - a = size := by
    intro a size hpos
    omega
  simp only [place, window, viewport, hsize hwidth, hsize hheight]

/-- The pixels of an image have places of their own. -/
theorem Panel.place_inj (hwidth : 0 < im.width) (hheight : 0 < im.height) {m n : ℕ}
    (hm : m < im.width * im.height) (hn : n < im.width * im.height)
    (h : (p.window l t im).place m = (p.window l t im).place n) : m = n := by
  rw [place_window hwidth hheight, place_window hwidth hheight, Prod.mk.injEq] at h
  have hdiv : ∀ {k : ℕ}, k < im.width * im.height → k / im.width % im.height = k / im.width :=
    fun hk => Nat.mod_eq_of_lt (Nat.div_lt_of_lt_mul hk)
  rw [hdiv hm, hdiv hn] at h
  rw [← Nat.div_add_mod m im.width, ← Nat.div_add_mod n im.width, Nat.add_left_cancel h.1,
    Nat.add_left_cancel h.2]

/-- The place of a pixel. -/
theorem Panel.place_pixel {px py : ℕ} (hx : px < im.width) (hy : py < im.height) :
    (p.window l t im).place (py * im.width + px) = (l + px, t + py) := by
  have hwidth : 0 < im.width := Nat.zero_lt_of_lt hx
  rw [place_window hwidth (Nat.zero_lt_of_lt hy), Nat.mul_add_mod', Nat.mod_eq_of_lt hx,
    Nat.mul_comm, Nat.mul_add_div hwidth, Nat.div_eq_of_lt hx, Nat.add_zero, Nat.mod_eq_of_lt hy]

/-- An image in its window. -/
theorem Panel.puts_image {px py : ℕ} (hx : px < im.width) (hy : py < im.height) :
    ((p.window l t im).puts im.pixels).picture (l + px) (t + py) = im.pixel px py := by
  have hwidth : 0 < im.width := Nat.zero_lt_of_lt hx
  have hheight : 0 < im.height := Nat.zero_lt_of_lt hy
  have hlt := index_lt hx hy
  have hk : py * im.width + px < im.pixels.length := by rwa [im.length_pixels]
  have hplace : (p.window l t im).place ((p.window l t im).sent + (py * im.width + px)) =
      (l + px, t + py) := by
    rw [window, viewport, Nat.zero_add]
    exact place_pixel hx hy
  rw [puts_picture hk hplace]
  · exact (List.getElem?_eq_some_iff.mp (Image.pixels_getElem? hx hy)).2
  · intro j hlt' hj heq
    rw [im.length_pixels] at hj
    have hsame : (p.window l t im).place j =
        (p.window l t im).place (py * im.width + px) := by
      rw [place_pixel hx hy, ← heq, window, viewport, Nat.zero_add]
    have hjk := place_inj hwidth hheight hj hlt hsame
    omega

/-- The rest of the picture. -/
theorem Panel.puts_image_outside (hwidth : 0 < im.width) (hheight : 0 < im.height) {x y : ℕ}
    (h : ¬ (l ≤ x ∧ x < l + im.width ∧ t ≤ y ∧ y < t + im.height)) :
    ((p.window l t im).puts im.pixels).picture x y = p.picture x y := by
  rw [puts_outside]
  · rfl
  · intro k _ heq
    rw [place_window hwidth hheight, Prod.mk.injEq] at heq
    have hmod := Nat.mod_lt ((p.window l t im).sent + k) hwidth
    have hmod' := Nat.mod_lt (((p.window l t im).sent + k) / im.width) hheight
    omega

/-- The last pixel of an image that is not sent as a whole. -/
theorem Panel.puts_part (hwidth : 0 < im.width) (hheight : 0 < im.height) {n : ℕ}
    (hn : n < im.width * im.height) :
    ((p.window l t im).puts (im.pixels.take n)).picture (l + (im.width - 1))
      (t + (im.height - 1)) = p.picture (l + (im.width - 1)) (t + (im.height - 1)) := by
  rw [puts_outside]
  · rfl
  · intro k hk heq
    rw [List.length_take, im.length_pixels] at hk
    have hx : im.width - 1 < im.width := Nat.sub_one_lt hwidth.ne'
    have hy : im.height - 1 < im.height := Nat.sub_one_lt hheight.ne'
    have hlast : (im.height - 1) * im.width + (im.width - 1) + 1 = im.width * im.height := by
      rw [Nat.sub_mul, Nat.one_mul, Nat.mul_comm im.height]
      have hle : im.width ≤ im.width * im.height := Nat.le_mul_of_pos_right _ hheight
      omega
    have hsame : (p.window l t im).place k =
        (p.window l t im).place ((im.height - 1) * im.width + (im.width - 1)) := by
      rw [place_pixel hx hy, ← heq, window, viewport, Nat.zero_add]
    have hkn := place_inj hwidth hheight (by omega) (by omega) hsame
    omega

end Windows

/-! ## One frame -/

theorem Gives.take {σ : Type} {next : σ → σ × Int} {s s' : σ} {bytes : List UInt8}
    (h : Gives next s bytes s') (n : ℕ) : ∃ t, Gives next s (bytes.take n) t := by
  induction bytes generalizing s n with
  | nil =>
    rw [List.take_nil]
    exact ⟨s, gives_nil.mpr rfl⟩
  | cons c bytes ih =>
    cases n with
    | zero => exact ⟨s, gives_nil.mpr rfl⟩
    | succ n =>
      rw [gives_cons] at h
      rcases ih h.2 n with ⟨t, ht⟩
      exact ⟨t, gives_cons.mpr ⟨h.1, ht⟩⟩

@[simp]
theorem memGet_buffer (s : MemStream) : (memGet s).1.buffer = s.buffer := by
  unfold memGet
  split <;> rfl

@[simp]
theorem memSeek_buffer (s : MemStream) (offset : ℤ) (origin : Origin) :
    (memSeek s offset origin).buffer = s.buffer := by
  unfold memSeek
  dsimp only
  split_ifs <;> rfl

@[simp]
theorem setpos_buffer (s : MemStream) (offset : ℕ) : (setpos s offset).buffer = s.buffer :=
  memSeek_buffer s _ _

@[simp]
theorem streamRead_buffer (n : ℕ) (s : MemStream) : (streamRead n s).1.buffer = s.buffer := by
  induction n generalizing s with
  | zero => rfl
  | succ n ih =>
    rw [streamRead]
    dsimp only
    split_ifs
    · exact memGet_buffer s
    · rw [ih, memGet_buffer]

theorem validateBlock_buffer (size : ℕ) (typeId : UInt8) (expectedLength : ℤ) (s : MemStream) :
    (validateBlock size typeId expectedLength s).1.buffer = s.buffer := by
  unfold validateBlock
  dsimp only
  split_ifs <;> simp

theorem checkIf_buffer {check : MemStream → MemStream × Bool}
    (h : ∀ s, (check s).1.buffer = s.buffer) (there : Bool) (s : MemStream) :
    (checkIf there check s).1.buffer = s.buffer := by
  unfold checkIf
  split_ifs
  · exact h s
  · rfl

/-- No decoder changes what is in the stream. -/
theorem prepareInputState_buffer {s t : InputState} {compression : UInt8}
    {next : InputState → InputState × Int}
    (h : prepareInputState s compression = some (next, t)) :
    t.srcStream = s.srcStream ∧ ∀ r, (next r).1.srcStream.buffer = r.srcStream.buffer := by
  have hbyte : ∀ r, (nextByte r).1.srcStream.buffer = r.srcStream.buffer := by
    intro r
    unfold nextByte
    dsimp only
    split_ifs <;> simp
  have hmarker : ∀ r, (readMarker r).srcStream.buffer = r.srcStream.buffer := by
    intro r
    unfold readMarker
    dsimp only
    split_ifs <;> simp
  unfold prepareInputState at h
  split_ifs at h
  · rw [Option.some.injEq, Prod.mk.injEq] at h
    rcases h with ⟨rfl, rfl⟩
    exact ⟨rfl, fun r => memGet_buffer r.srcStream⟩
  · rw [Option.some.injEq, Prod.mk.injEq] at h
    rcases h with ⟨rfl, rfl⟩
    refine ⟨rfl, fun r => ?_⟩
    rw [byteRleDecoder, hbyte]
    split_ifs
    · exact hmarker r
    · rfl

theorem Gives.buffer {next : InputState → InputState × Int} {s s' : InputState}
    {bytes : List UInt8} (hnext : ∀ r, (next r).1.srcStream.buffer = r.srcStream.buffer)
    (h : Gives next s bytes s') : s'.srcStream.buffer = s.srcStream.buffer := by
  induction bytes generalizing s with
  | nil => rw [gives_nil.mp h]
  | cons c bytes ih =>
    rw [gives_cons] at h
    rw [ih h.2, hnext]

theorem toUInt16_eq {i : ℤ} {n : ℕ} (hi : i = n) (hn : n < 65536) : toUInt16 i = n := by
  rw [toUInt16, hi]
  omega

section Drawing

variable {width height i : ℕ} {blocks : List FrameBlock} {image : ImageHandle} {im : Image}

/-- Where a frame is drawn: its rectangle, or the whole image. -/
def FrameBlock.Window (b : FrameBlock) (image : ImageHandle) (x y l t : ℕ) (im : Image) : Prop :=
  match b.box with
  | none => l = x ∧ t = y ∧ im.width = image.width ∧ im.height = image.height
  | some box => l = x + box.left ∧ t = y + box.top ∧ x + box.right + 1 = l + im.width ∧
      y + box.bottom + 1 = t + im.height

/-- How many pixels of an image are sent. -/
def pixelsSent (im : Image) : ℕ :=
  im.width * im.height * 24 % 4294967296 / 8 / 3

/-- A frame is drawn in its window, up to a number of pixels. -/
theorem drawImage_block (h : LayoutFits width height blocks)
    (hs : image.stream.buffer = layout width height blocks) (hi : i < blocks.length)
    (hb : blocks[i].Fits) {useRle : Bool}
    (him : encode useRle im.rgb = some (blocks[i].compression, blocks[i].data))
    (hwidth : 0 < im.width) (hheight : 0 < im.height) {x y l t : ℕ}
    (hl : l + im.width ≤ 65536) (ht : t + im.height ≤ 65536)
    (hsize : im.width * im.height < 4294967296) (hwindow : blocks[i].Window image x y l t im)
    (buffer : PixdataBuffer) (panel : Panel) :
    ∃ s, drawImage buffer panel x y image i = ({ image with stream := s },
      (panel.window l t im).puts (im.pixels.take (pixelsSent im)), some blocks[i].info) ∧
        s.buffer = layout width height blocks := by
  rcases h.prepareFrame hs hi hb with ⟨stream, rest, hprepare, hahead, hbuffer⟩
  rcases encode_gives useRle im.rgb with ⟨compression, data, hencode, hgives⟩
  rw [hencode, Option.some.injEq, Prod.mk.injEq] at him
  rcases him with ⟨rfl, hdata⟩
  rw [← hdata] at hahead
  rcases hgives stream rest hahead with ⟨next, input, s', n, hinput, hgives, -, -⟩
  rcases prepareInputState_buffer hinput with ⟨hsource, hkeep⟩
  rcases hgives.take (im.width * im.height * 24 % 4294967296 / 8) with ⟨s'', hpart⟩
  have hcount : (im.rgb.take (im.width * im.height * 24 % 4294967296 / 8)).length =
      im.width * im.height * 24 % 4294967296 / 8 := by
    have hmod := Nat.mod_le (im.width * im.height * 24) 4294967296
    rw [List.length_take, Image.length_rgb]
    omega
  have hcorners : (if blocks[i].info.isDelta = true then toUInt16 (x + blocks[i].info.left)
        else x) = l ∧
      (if blocks[i].info.isDelta = true then toUInt16 (y + blocks[i].info.top) else y) = t ∧
      (if blocks[i].info.isDelta = true then toUInt16 (x + blocks[i].info.right)
        else toUInt16 (x + image.width - 1)) = l + im.width - 1 ∧
      (if blocks[i].info.isDelta = true then toUInt16 (y + blocks[i].info.bottom)
        else toUInt16 (y + image.height - 1)) = t + im.height - 1 := by
    unfold FrameBlock.Window at hwindow
    cases hbox : blocks[i].box with
    | none =>
      rw [hbox] at hwindow
      rcases hwindow with ⟨rfl, rfl, hw, hh⟩
      simp only [FrameBlock.info, hbox, Option.isSome_none, Bool.false_eq_true, if_false,
        true_and]
      exact ⟨toUInt16_eq (by omega) (by omega), toUInt16_eq (by omega) (by omega)⟩
    | some box =>
      rw [hbox] at hwindow
      rcases hwindow with ⟨rfl, rfl, hw, hh⟩
      simp only [FrameBlock.info, hbox, Option.isSome_some, if_true, Option.map_some,
        Option.getD_some]
      exact ⟨toUInt16_eq (by omega) (by omega), toUInt16_eq (by omega) (by omega),
        toUInt16_eq (by omega) (by omega), toUInt16_eq (by omega) (by omega)⟩
  have hpixels : ((((l + im.width - 1 : ℕ) : ℤ) - l + 1) * (((t + im.height - 1 : ℕ) : ℤ) - t + 1) %
      4294967296).toNat = im.width * im.height := by
    have hw : ((l + im.width - 1 : ℕ) : ℤ) - l + 1 = im.width := by omega
    have hh : ((t + im.height - 1 : ℕ) : ℤ) - t + 1 = im.height := by omega
    rw [hw, hh, ← Nat.cast_mul]
    omega
  rcases hcorners with ⟨hleft, htop, hright, hbottom⟩
  refine ⟨s''.srcStream, ?_, ?_⟩
  · unfold drawImage
    rw [hprepare]
    dsimp only
    rw [hleft, htop, hright, hbottom, hpixels]
    change (match prepareInputState (inputState stream) blocks[i].compression with
      | none => _
      | some (next, input) => _) = _
    rw [hinput]
    dsimp only
    have hbpp : blocks[i].info.bpp = 24 := rfl
    rw [hbpp, appender_gives buffer _ hpart hcount]
    dsimp only
    rw [Image.rgb, Panel.receive_take]
    rfl
  · rw [hpart.buffer hkeep, hsource]
    exact hbuffer.trans hs

end Drawing

end Painter
end VialQmk
