import EsoHost.Brainfuck.Machine
import EsoHost.Brainfuck.Program
import EsoHost.Brainfuck.Tape
import EsoHost.CommandLine.App
import EsoHost.CommandLine.Arguments
import EsoHost.CommandLine.Path
import EsoHost.Engine
import EsoHost.Main
import EsoHost.Piet.Block
import EsoHost.Piet.Color
import EsoHost.Piet.Exit
import EsoHost.Piet.Grid
import EsoHost.Piet.Heading
import EsoHost.Piet.Instruction
import EsoHost.Piet.Machine
import EsoHost.Piet.Program
import EsoHost.Piet.Raster
import EsoHost.Piet.Slide
import EsoHost.Piet.SourceText
import EsoHost.Piet.Stack
import EsoHost.Piet.Word
import EsoHost.Proofs.Brainfuck.Brackets
import EsoHost.Proofs.Brainfuck.Evaluation
import EsoHost.Proofs.Brainfuck.Tree
import EsoHost.Proofs.Bursts
import EsoHost.Proofs.Chronicle
import EsoHost.Proofs.Delivery
import EsoHost.Proofs.Dialogue
import EsoHost.Proofs.Engine
import EsoHost.Proofs.InputText
import EsoHost.Proofs.Numerals
import EsoHost.Proofs.Pacing
import EsoHost.Proofs.Piet.Border
import EsoHost.Proofs.Piet.Diagnosis
import EsoHost.Proofs.Piet.Division
import EsoHost.Proofs.Piet.Execution
import EsoHost.Proofs.Piet.Exit
import EsoHost.Proofs.Piet.ExitTable
import EsoHost.Proofs.Piet.Footing
import EsoHost.Proofs.Piet.Layout
import EsoHost.Proofs.Piet.Lockstep
import EsoHost.Proofs.Piet.MissingOperands
import EsoHost.Proofs.Piet.Recolor
import EsoHost.Proofs.Piet.Rectangle
import EsoHost.Proofs.Piet.Region
import EsoHost.Proofs.Piet.Repaint
import EsoHost.Proofs.Piet.Roll
import EsoHost.Proofs.Piet.Segmentation
import EsoHost.Proofs.Piet.Simulation
import EsoHost.Proofs.Piet.Slide
import EsoHost.Proofs.Piet.Walk
import EsoHost.Proofs.Piet.Walker
import EsoHost.Proofs.Record
import EsoHost.Proofs.Restart
import EsoHost.Proofs.Session
import EsoHost.Proofs.Staging
import EsoHost.Proofs.Stopping
import EsoHost.Proofs.Transcript
import EsoHost.Proofs.Waiting
import EsoHost.Session
import EsoHost.Status
import EsoHost.Terminal
import EsoHost.Text.Decimal
import EsoHost.Text.Lines
import EsoHost.Text.Whitespace
import EsoHost.Transcript
