import VegaOS.Proofs.PmmRuns
import VegaOS.Proofs.PmmPlace
import VegaOS.Proofs.PmmHint
import VegaOS.Proofs.MmuSelector
import VegaOS.Proofs.MmuOom
import VegaOS.Proofs.MmuWindow
import VegaOS.Proofs.PrintkCursor
import VegaOS.Proofs.PrintkArgs
import VegaOS.Proofs.Fb
import VegaOS.Src.Pty
import VegaOS.Proofs.PtyFont
import VegaOS.Lib.Armv8
import VegaOS.Proofs.FbNull
import VegaOS.Proofs.PrintkRender
import VegaOS.Proofs.MmuBlocks
import VegaOS.Proofs.MmuTranslate
import VegaOS.Lib.Cache
import VegaOS.Proofs.MmuTlb
import VegaOS.Lib.Amd64
import VegaOS.Proofs.BitmapSet
import VegaOS.Proofs.Idt
import VegaOS.Proofs.MmuInit
import VegaOS.Lib.Positional
import VegaOS.Proofs.NumeralsRead
import VegaOS.Lib.Raster
import VegaOS.Proofs.FbPixels
import VegaOS.Proofs.PtyLayout
import VegaOS.Proofs.PtyDraw
import VegaOS.Proofs.MmuAccount
import VegaOS.Lib.Lines
import VegaOS.Proofs.Terminal
import VegaOS.Proofs.PrintkScreen
import VegaOS.Lib.Armv8Access
import VegaOS.Proofs.MmuAccess
import VegaOS.Proofs.MmuOwnAlloc
import VegaOS.Lib.Amd64Delivery
import VegaOS.Proofs.Exceptions
import VegaOS.Lib.A64
import VegaOS.Proofs.Assembly
import VegaOS.Src.Init
import VegaOS.Proofs.Init
import VegaOS.Lib.Copy
import VegaOS.Proofs.Memcpy
import VegaOS.Lib.Glyphs
import VegaOS.Proofs.Reading
import VegaOS.Proofs.InitText
