import Twrp.Base.Prog
import Twrp.Base.CString
import Twrp.Settings.Values
import Twrp.Settings.Defaults
import Twrp.Settings.File
import Twrp.Backup.Rates
import Twrp.Base.Path
import Twrp.Tar.Tree
import Twrp.Tar.Walk
import Twrp.Tar.RoundTrip
import Twrp.Tar.Threads
import Twrp.Tar.Division
import Twrp.Base.Process
import Twrp.Tar.Buffer
import Twrp.Tar.Fork
import Twrp.Tar.Selection
import Twrp.Backup.Run
import Twrp.Backup.Reported
import Twrp.Restore.Archives
import Twrp.Tar.Files
import Twrp.Tar.Bounds
import Twrp.Restore.Coverage
import Twrp.Restore.SizeCheck
import Twrp.Settings.Load
import Twrp.Settings.Persist
import Twrp.Zip.Archive
import Twrp.Zip.Verifier
import Twrp.Base.Crash
import Twrp.Patch.Disk
import Twrp.Patch.Apply
import Twrp.Patch.Crash
import Twrp.Patch.Reading
import Twrp.Patch.Partition
import Twrp.Patch.Source
import Twrp.Patch.Success
import Twrp.Patch.Verify
import Twrp.Patch.Load
import Twrp.Patch.BsPatch
import Twrp.Base.Line
import Twrp.Install.Pipe
import Twrp.Install.Run
import Twrp.Edify.Readme
import Twrp.Updater.Abort
import Twrp.Mtd.Reported
import Twrp.Zip.Repeated
import Twrp.Zip.Contained
import Twrp.Base.Field
import Twrp.Boot.Args
import Twrp.Boot.Clkpartmgr
import Twrp.Boot.Startup
import Twrp.Base.Number
import Twrp.Boot.Injecttwrp
import Twrp.Mtd.Bml
import Twrp.NativeSD.Restore
import Twrp.NativeSD.Backup
import Twrp.Fstab.Flags
import Twrp.Fstab.Options
import Twrp.Fstab.Mtd
import Twrp.Fstab.Entries
import Twrp.Script.Lines
import Twrp.Base.Folders
import Twrp.Functions.Mkdir
import Twrp.Storage.Repartition
import Twrp.Storage.DataOnExt
import Twrp.Backup.Space
import Twrp.Backup.Counters
import Twrp.Backup.Digests
import Twrp.Zip.EarlyExit
import Twrp.Updater.PropFile
import Twrp.Updater.Reports
import Twrp.Patch.FreeCache
import Twrp.Base.Memory
import Twrp.Zip.Bounds
import Twrp.Base.Reach
import Twrp.Zip.ToBuffer
import Twrp.Zip.HashCalls
import Twrp.Patch.Retouch
import Twrp.Imgdiff.Merge
import Twrp.Imgdiff.ReadImage
import Twrp.Base.Fscanf
import Twrp.Zip.Keys
import Twrp.Zip.KeysLoaded
import Twrp.Patch.ImageRun
import Twrp.Gui.Console
import Twrp.Base.Sorting
import Twrp.Gui.FileSort
import Twrp.Gui.Template
import Twrp.Gui.Packages
import Twrp.Mmc.Mbr
import Twrp.Scan.Calls
import Twrp.FixPermissions.Packages
import Twrp.Gui.InputCursor
import Twrp.Gui.FileTouch
