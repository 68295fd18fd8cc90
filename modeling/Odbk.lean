import Odbk.Lib.EmplaceMap
import Odbk.Lib.BindScript
import Odbk.Lib.InlineHook
import Odbk.Lib.HookHistory
import Odbk.Lib.HookOrder
import Odbk.Lib.VisitedWalk
import Odbk.Lib.WalkRuns
import Odbk.Lib.CString
import Odbk.Lib.DoWhile
import Odbk.Lib.InlineAsm
import Odbk.Lib.ParamSlots
import Odbk.Lib.ByteStream
import Odbk.Lib.Framing
import Odbk.Lib.Handover
import Odbk.Lib.ByteMemory
import Odbk.Api
import Odbk.Process
import Odbk.FinishLoad
import Odbk.Acceptance
import Odbk.ModuleScan
import Odbk.ScanRuns
import Odbk.ScanStop
import Odbk.KeyModule
import Odbk.Gathering
import Odbk.ScanComplete
import Odbk.ScanLog
import Odbk.Load
import Odbk.LoadHistory
import Odbk.Candidates
import Odbk.Detours
import Odbk.Install
import Odbk.HookTargets
import Odbk.InstallRuns
import Odbk.Entry
import Odbk.Provenance
import Odbk.LoadModel
import Odbk.Reinstall
import Odbk.SecondVm
import Odbk.CallDepth
import Odbk.ScriptLoading
import Odbk.Thunks
import Odbk.Wrappers
import Odbk.Contexts
import Odbk.Transparency
import Odbk.Format
import Odbk.Proto
import Odbk.Session
import Odbk.FrontendStream
import Odbk.LogStream
import Odbk.Paths
import Odbk.LocateSymFile
import Odbk.PeImage
import Odbk.Imports
import Odbk.MappedModules
import Odbk.MappedScan
import Odbk.SymbolFiles
