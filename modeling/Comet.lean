import Comet.Word
import Comet.FindHeader
import Comet.SpaceBitmap.Basic
import Comet.Rounding
import Comet.SpaceBitmap.Visit
import Comet.SpaceBitmap.ClearRange
import Comet.SpaceBitmap.Sweep
import Comet.SpaceBitmap.SweepBuffer
import Comet.SpaceBitmap.FindHeader
import Comet.ObjectStartBitmap
import Comet.Header
import Comet.HeapBitmap
import Comet.SpaceBitmap.Marking
import Comet.ShadowStack
import Comet.Safepoint.Basic
import Comet.Safepoint.StopTheWorld
import Comet.Safepoint.Progress
import Comet.PowerOfTwo
