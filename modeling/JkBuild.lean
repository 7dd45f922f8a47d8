import JkBuild.Basic
import JkBuild.LinkLine
import JkBuild.RootMakefile
import JkBuild.TarjanVectors
import JkBuild.Kahn
import JkBuild.TopologicalSort
import JkBuild.QueueOrder
import JkBuild.LinkOrder
import JkBuild.Combinators
import JkBuild.Dependent
import JkBuild.DependentGrammar
import JkBuild.DependentRoundTrip
import JkBuild.Kwargs
import JkBuild.BuildRuleBase
import JkBuild.Packages
import JkBuild.Worklist
import JkBuild.Loading
import JkBuild.Resolution
import JkBuild.MissingRules
import JkBuild.Tasks
import JkBuild.Fields
import JkBuild.Preparation
import JkBuild.FlagPropagation
import JkBuild.Readiness
import JkBuild.Pipeline
import JkBuild.WorkerPool
import JkBuild.Download
import JkBuild.CompilationDatabase
import JkBuild.Conversion
import JkBuild.BinaryDependencies
import JkBuild.CountableSteps
import JkBuild.Progress
import JkBuild.Interpreter
import JkBuild.PackagePresence
import JkBuild.DeclaredRules
import JkBuild.Accessors
import JkBuild.SourceExpansion
import JkBuild.BuildMakefile
import JkBuild.Buildable
import JkBuild.DependencyFiles
import JkBuild.ShellWords
import JkBuild.CommandLines
import JkBuild.Wakeups
import JkBuild.PyParser
import JkBuild.PyRoundTrip
import JkBuild.Constructions
import JkBuild.MmParser
import JkBuild.ParserTermination
import JkBuild.StreamPositions
import JkBuild.ViewBounds
import JkBuild.PyErrors
import JkBuild.Base64
import JkBuild.Occurrences
import JkBuild.Replacement
import JkBuild.ProjectRoot
import JkBuild.BarPrinting
import JkBuild.AssumeFolder
import JkBuild.FileWriter
import JkBuild.ParallelWriters
import JkBuild.MakeSyntax
import JkBuild.MakefileText
import JkBuild.LinkedRules
import JkBuild.LinkedSymbols
import JkBuild.RuleMakefiles
import JkBuild.ParallelBuild
import JkBuild.IncrementalBuild
import JkBuild.MakeGraph
import JkBuild.MakefileCalls
import JkBuild.WrittenBuild
import JkBuild.GeneratedBuild
