import TailLoop.Table
import TailLoop.Text.Letters
import TailLoop.Text.Width
import TailLoop.CompilationUnit
import TailLoop.Layout.Render
import TailLoop.Term.Dump
import TailLoop.Script.Printer
import TailLoop.Calls.Dump
import TailLoop.Journal
import TailLoop.Lower.Env
import TailLoop.Lower.Code
import TailLoop.Lower.Module
import TailLoop.Proofs.NameResolution
import TailLoop.Main
import TailLoop.Proofs.BlockEnds
import TailLoop.Proofs.FunctionBodies
import TailLoop.Proofs.JumpTargets
import TailLoop.Proofs.JumpLowering
import TailLoop.Proofs.DocTexts
import TailLoop.Proofs.Tokens
import TailLoop.Proofs.Grammar
import TailLoop.Proofs.Parsing
import TailLoop.Proofs.ReadForms
import TailLoop.Proofs.ReadBack
import TailLoop.Proofs.Evaluation
import TailLoop.Proofs.Worlds
import TailLoop.Proofs.Simulation
import TailLoop.Proofs.SameValues
import TailLoop.Proofs.Decoding
import TailLoop.Proofs.OwnNames
import TailLoop.Proofs.DecodedDoubles
import TailLoop.Proofs.LevelIndependence
import TailLoop.Proofs.SourceOrder
import TailLoop.Proofs.LoopMode
import TailLoop.Proofs.ModuleNames
import TailLoop.Proofs.PublishedNames
import TailLoop.Proofs.Arrivals
import TailLoop.Proofs.BlockSimulation
import TailLoop.Proofs.ModuleSimulation
import TailLoop.Proofs.ExpressionBlocks
import TailLoop.Proofs.LoopRounds
import TailLoop.Proofs.LoopStates
import TailLoop.Proofs.Occurrences
import TailLoop.Proofs.SimultaneousJumps
import TailLoop.Proofs.SummaryBounds
import TailLoop.Proofs.LocalDecisions
import TailLoop.Proofs.NameSupply
import TailLoop.Proofs.EscapedNames
import TailLoop.Proofs.NameTables
import TailLoop.Proofs.SharedFunctions
import TailLoop.Proofs.SummaryWords
import TailLoop.Proofs.LineWidths
import TailLoop.Proofs.Integers
import TailLoop.Proofs.LeadingLiterals
import TailLoop.Proofs.DeclaredNames
