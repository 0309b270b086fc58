import XyzDB.Turba.LastWriter
import XyzDB.Turba.WriteSafety
import XyzDB.Turba.ScanSnapshot
import XyzDB.Turba.JournalSafety
import XyzDB.Turba.ManifestSafety
import XyzDB.Turba.ScanFaults
import XyzDB.Turba.AckSafety
import XyzDB.Talk.Policy
import XyzDB.Engine.Anchored
import XyzDB.Engine.Columns
import XyzDB.Server.Connection
import XyzDB.Engine.Lifetimes
import XyzDB.Turba.BootMerge
import XyzDB.Engine.Requests
import XyzDB.Engine.GhostLife
import XyzDB.Engine.GroupBy
import XyzDB.Turba.Bloom
import XyzDB.Engine.Timestamps
