import Marcelov.Lib.BigEndian
import Marcelov.Lib.Buffer
import Marcelov.Lib.CText
import Marcelov.Lib.Cyclic
import Marcelov.Lib.Loop
import Marcelov.Lib.Memory
import Marcelov.Lib.Ring
import Marcelov.Lib.Run
import Marcelov.Lib.Stdio
import Marcelov.Lib.Viewer
import Marcelov.Lib.Writes
import Marcelov.Fonts
import Marcelov.Fb
import Marcelov.Scancodes
import Marcelov.Scrollback
import Marcelov.Draw
import Marcelov.Keyboard
import Marcelov.Rows
import Marcelov.Widths
import Marcelov.Layout
import Marcelov.Text
import Marcelov.Viewport
import Marcelov.Numbering
import Marcelov.Pixels
import Marcelov.Clip
import Marcelov.FillRect
import Marcelov.Render
import Marcelov.BootPrint
import Marcelov.BootSafe
import Marcelov.BootKeep
import Marcelov.Shift
import Marcelov.Redraw
import Marcelov.Page
import Marcelov.Terminal
import Marcelov.Typing
import Marcelov.Undo
import Marcelov.Mouse
import Marcelov.Pointer
import Marcelov.Buttons
import Marcelov.Kmi
import Marcelov.Interrupts
import Marcelov.Query
import Marcelov.Trap
import Marcelov.Deliver
import Marcelov.Desktop
import Marcelov.BootDraw
import Marcelov.Interrupted
import Marcelov.Heal
import Marcelov.BootText
import Marcelov.Boot
import Marcelov.Utils
import Marcelov.FwCfg
import Marcelov.FbInit
import Marcelov.ByteOrder
import Marcelov.Print
import Marcelov.PrintDec
import Marcelov.ReadUntil
import Marcelov.ToDataFile
import Marcelov.DataFile
import Marcelov.DataRoundTrip
