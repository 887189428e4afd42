import C2paZip.Coverage
import C2paZip.Fill
import C2paZip.TwoPass
import C2paZip.Repeat
import C2paZip.Built
import C2paZip.Comment
import C2paZip.Accounted
import C2paZip.Descriptor
import C2paZip.Ranges
import C2paZip.LocalHeader
import C2paZip.Report
import C2paZip.Sentinels
import C2paZip.NoPanic
import C2paZip.Crc32
import C2paZip.Protocol
import C2paZip.Canonical
import C2paZip.Removals
import C2paZip.DirectoryOrder
import C2paZip.Resized
import C2paZip.LastFill
import C2paZip.Damage
import C2paZip.MachineRuns
