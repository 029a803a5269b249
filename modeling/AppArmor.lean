import AppArmor.Perms.Resolved
import AppArmor.Expr.Reverse
import AppArmor.Hfa.DiffWeight
import AppArmor.Hfa.Unreachable
import AppArmor.Hfa.Classes
import AppArmor.Hfa.PermsTable
import AppArmor.Hfa.Layout
import AppArmor.Load.Reports
import AppArmor.Interface.FeaturesCorrect
import AppArmor.Interface.PolicyBuffer
import AppArmor.Interface.CacheDir
import AppArmor.Interface.SplitOverlay
import AppArmor.Interface.QueryLabel
import AppArmor.Interface.ProcAttr
import AppArmor.Interface.LogScanner
import AppArmor.Interface.PolicyCacheCorrect
import AppArmor.Glob.Progress
import AppArmor.File.Slashes
import AppArmor.File.DenyAll
import AppArmor.File.OnExec
import AppArmor.File.XTable
import AppArmor.File.Block
import AppArmor.File.Compiled
import AppArmor.Utils.MergedVars
import AppArmor.Utils.Conditional
import AppArmor.Utils.Rlimit
import AppArmor.Utils.SeverityCorrect
import AppArmor.Utils.Skippable
import AppArmor.Utils.FilePerms
import AppArmor.Utils.LoadInclude
import AppArmor.Utils.SocketCover
import AppArmor.Utils.ExpandVar
