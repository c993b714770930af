import Stage0.BoundedLoops
import Stage0.CInt
import Stage0.Automaton
import Stage0.AutomatonSpread
import Stage0.LifeBoard
import Stage0.LifeUpdate
import Stage0.LifePlane
import Stage0.ByteFile
import Stage0.BlockFile
import Stage0.CopyFile
import Stage0.Script
import Stage0.CopyHoles
import Stage0.HoleWrites
import Stage0.Tee
import Stage0.Descriptors
import Stage0.DupFd
import Stage0.Interleave
import Stage0.AtomicAppend
import Stage0.AppendOutcomes
import Stage0.AppendShuffle
import Stage0.ExclusiveOpen
import Stage0.KiloInput
import Stage0.KiloKeys
import Stage0.Decimal
import Stage0.KiloReport
import Stage0.KiloReportLanguage
import Stage0.KiloEditor
import Stage0.Getpwnam
import Stage0.Environ
import Stage0.SetEnv
import Stage0.SetEnvHistory
import Stage0.Terminal
import Stage0.TerminalLine
import Stage0.TerminalDisplay
import Stage0.LifeRender
import Stage0.LifeDiff
import Stage0.LifeEscape
import Stage0.LifeScreen
import Stage0.LifeStatus
import Stage0.LifeUnion
import Stage0.LifeSpread
import Stage0.LifeMain
import Stage0.WhileLoop
import Stage0.Search
import Stage0.IntSearch
import Stage0.Heron
import Stage0.KiloRows
import Stage0.KiloExit
import Stage0.KiloScreen
import Stage0.KiloSession
import Stage0.KiloWindowSize
import Stage0.X86
import Stage0.Assembly
import Stage0.Strtol
import Stage0.GetNum
import Stage0.SeekIo
import Stage0.FreeSbrk
import Stage0.UgidFunctions
import Stage0.ModifyEnv
