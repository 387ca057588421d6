import SwppCompiler.Backend.AllocaBytes
import SwppCompiler.Backend.Calls
import SwppCompiler.Backend.ConstExpr
import SwppCompiler.Backend.GetElementPtr
import SwppCompiler.Backend.Globals
import SwppCompiler.Backend.Linking
import SwppCompiler.Backend.NextUse
import SwppCompiler.Backend.PhiLowering
import SwppCompiler.Backend.Preservation
import SwppCompiler.Backend.ProgramText
import SwppCompiler.Backend.RoundTrip
import SwppCompiler.Backend.StackFrame
import SwppCompiler.Interp.Arithmetic
import SwppCompiler.Interp.FirstFit
import SwppCompiler.Interp.Outline
import SwppCompiler.Interp.ReadOverWrite
import SwppCompiler.Interp.Reset
import SwppCompiler.Interp.Running
import SwppCompiler.Passes.Exclusion
import SwppCompiler.Passes.MemUseActivation
import SwppCompiler.Passes.Packing
import SwppCompiler.Passes.Reordering
import SwppCompiler.Passes.ResetPointer
import SwppCompiler.Passes.WeirdArithmetic
