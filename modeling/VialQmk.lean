import VialQmk.Library.Runs
import VialQmk.Library.BoundedLoop
import VialQmk.Library.Resumption
import VialQmk.Library.CString
import VialQmk.Library.Raster
import VialQmk.WearLeveling.Durability
import VialQmk.WearLeveling.PowerLoss
import VialQmk.WearLeveling.FlashProtocol
import VialQmk.Vial.MacroFrame
import VialQmk.Vial.NonLeak
import VialQmk.Vial.Unlock
import VialQmk.Tapping.Decision
import VialQmk.Keys.Balance
import VialQmk.SplitEncoder.ExactlyOnce
import VialQmk.Macro.Confinement
import VialQmk.TapDance.Index
import VialQmk.TapDance.Active
import VialQmk.TapDance.TapCount
import VialQmk.Secure.Unlock
import VialQmk.Debounce.SymDefer
import VialQmk.Debounce.SymEager
import VialQmk.Debounce.AsymEagerDefer
import VialQmk.Debounce.Wrapping
import VialQmk.Matrix.Task
import VialQmk.Painter.QgfRoundTrip
import VialQmk.OneShot.Layers
import VialQmk.SplitRpc.Confinement
import VialQmk.SplitRpc.Agreement
import VialQmk.SplitMatrix.LastKnownGood
import VialQmk.Keys.RingReport
import VialQmk.LegacyEeprom.PowerLoss
import VialQmk.ExternalEeprom.FlatArray
import VialQmk.SpiFlash.BackingStore
import VialQmk.Painter.QffGlyphs
import VialQmk.Vial.BufferWrites
import VialQmk.Vial.SettingsStore
import VialQmk.DeferredExec.Promises
import VialQmk.DynamicMacro.Stored
import VialQmk.DynamicMacro.Playback
import VialQmk.Combos.Timeout
import VialQmk.Combos.ReadyKept
import VialQmk.Oled.Driver
import VialQmk.Oled.Dirty
import VialQmk.Layers.SourceCache
import VialQmk.Unicode.Utf8
import VialQmk.Macro.SendString
import VialQmk.Painter.Truncation
import VialQmk.Painter.QgfSoundness
import VialQmk.RepeatKey.Pairing
import VialQmk.AutoShift.Decision
import VialQmk.Encoder.Quadrature
import VialQmk.Music.Sequencer
import VialQmk.RgbMatrix.Hits
import VialQmk.Unicode.Ucis
import VialQmk.Midi.Notes
import VialQmk.WearLeveling.EmbeddedFlash
import VialQmk.Oled.Bounds
import VialQmk.Audio.Consistency
import VialQmk.PointingDevice.Rules
import VialQmk.Keymap.JsonPlayback
import VialQmk.Steno.Chords
import VialQmk.Painter.Lines
import VialQmk.Painter.PaintsOnly
import VialQmk.Midi.StepBalance
import VialQmk.Keymap.JsonRoundTrip
