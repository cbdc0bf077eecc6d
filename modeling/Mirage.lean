import Mirage.Mir.Basic
import Mirage.Mir.Verify
import Mirage.Mir.Fold
import Mirage.Lib.Memory
import Mirage.Lib.Iterate
import Mirage.Lib.Width
import Mirage.X86.Machine
import Mirage.X86.Keeps
import Mirage.X86.ArgLayout
import Mirage.X86.Regalloc
import Mirage.X86.Liveness
import Mirage.X86.Scan
import Mirage.X86.Frame
import Mirage.X86.FrameLayout
import Mirage.X86.Emit
import Mirage.X86.Pieces
import Mirage.X86.Lease
import Mirage.X86.AllocSound
import Mirage.X86.Site
import Mirage.X86.Template
import Mirage.X86.TemplateInt
import Mirage.X86.AsmCoverage
import Mirage.Wasm.Machine
import Mirage.Wasm.EmitInt
import Mirage.X86.IntValue
import Mirage.Wasm.IntValue
import Mirage.Lowering
import Mirage.FoldAgree
import Mirage.Lang.Ast
import Mirage.Lang.Typestate
import Mirage.Lib.Run
import Mirage.Lang.ErrorRun
import Mirage.Lang.Narrowing
import Mirage.Lang.ErrorSound
import Mirage.Lib.Calls
import Mirage.Lang.Consts
import Mirage.Lang.ConstTermination
import Mirage.Lang.EnumLayout
import Mirage.Lang.ConstAgree
import Mirage.Lang.ConstGaps
import Mirage.Lang.ConstRuntime
import Mirage.Lang.TypeResolver
import Mirage.Lang.TypeTermination
import Mirage.Lib.Align
import Mirage.Lib.Intern
import Mirage.Lang.TypeIdentity
import Mirage.Lang.Layout
import Mirage.Lang.LayoutRuns
import Mirage.Lang.TypeFinite
import Mirage.Lang.TypeEnds
import Mirage.Lib.Actions
import Mirage.Lsp.DocumentStore
import Mirage.Lsp.CacheCoherence
import Mirage.Lsp.Resolver
import Mirage.Lsp.Publish
import Mirage.Lsp.Server
import Mirage.Lsp.Requests
import Mirage.Lib.Cursor
import Mirage.Syntax.Token
import Mirage.Syntax.Lexer
import Mirage.Syntax.LexerSteps
import Mirage.Syntax.LexerTiling
import Mirage.Syntax.Expr
import Mirage.Syntax.ExprPrint
import Mirage.Lib.Table
import Mirage.Lang.GenericInstances
import Mirage.Lang.GenericCoherence
import Mirage.Lib.CallPath
import Mirage.Lang.Traits
import Mirage.Lang.TraitOrder
import Mirage.Lang.Vtables
import Mirage.Lang.Dispatch
import Mirage.Lib.Loop
import Mirage.Mirgen.ForIn
import Mirage.Mirgen.CAbi
import Mirage.Mirgen.SystemV
import Mirage.Lib.Kahn
import Mirage.Lang.InitRefs
import Mirage.Lang.InitOrder
import Mirage.Lang.AsmCheck
import Mirage.Lib.Blob
import Mirage.Mirgen.Asm
import Mirage.X86.AsmMeaning
import Mirage.X86.AsmCarried
import Mirage.X86.AsmFaithful
import Mirage.Mirgen.ErrorUnion
import Mirage.Mirgen.ErrorFlow
import Mirage.Syntax.LexerKinds
import Mirage.Syntax.LexerAsi
import Mirage.Syntax.AsiLaw
import Mirage.Syntax.IntLiteral
import Mirage.Syntax.StringLiteral
import Mirage.Lib.Window
import Mirage.X86.Flags
import Mirage.Lib.FirstMatch
import Mirage.Wasm.Structured
import Mirage.Switch
import Mirage.Lib.Staging
import Mirage.Mir.Jump
import Mirage.X86.BlockArgs
import Mirage.Wasm.BlockArgs
import Mirage.BlockArgs
import Mirage.X86.Decode
import Mirage.X86.Encoder
import Mirage.X86.EncoderDecode
import Mirage.X86.EncoderFaithful
import Mirage.X86.FrameRegions
import Mirage.Mir.Typing
import Mirage.Lib.Rulers
import Mirage.Lsp.PositionEncoding
import Mirage.Lib.Labels
import Mirage.Wasm.Dispatch
import Mirage.Wasm.DispatchFaithful
import Mirage.Mir.Globals
import Mirage.Wasm.DataLayout
import Mirage.Wasm.DataSound
import Mirage.Lib.Reader
import Mirage.Lib.Leb128
import Mirage.Wasm.Encoder
import Mirage.Wasm.Decode
import Mirage.Wasm.EncoderDecode
import Mirage.Lib.DepthFirst
import Mirage.Lib.Dominators
import Mirage.Lib.DominatorLoop
import Mirage.Wasm.BuildCfg
import Mirage.Wasm.Activation
import Mirage.Wasm.EmitFunction
import Mirage.Wasm.ShadowStack
import Mirage.Wasm.ShadowRegions
import Mirage.Wasm.ShadowBalanced
import Mirage.Lib.Words
import Mirage.Lib.Reorder
import Mirage.Elf.Writer
import Mirage.Elf.Parse
import Mirage.Elf.ReadBack
import Mirage.Elf.Faithful
import Mirage.X86.Generate
import Mirage.X86.ObjectGlobals
import Mirage.Lib.Text
import Mirage.Lsp.Transport
import Mirage.Lsp.Uri
import Mirage.Syntax.ExprLevels
import Mirage.Syntax.ExprReads
import Mirage.Syntax.ExprText
import Mirage.Lib.Availability
import Mirage.Mir.Meaning
import Mirage.Mir.Ssa
import Mirage.Mir.Rewrite
import Mirage.Mir.Edits
import Mirage.Mir.Peephole
import Mirage.Mir.Aliases
import Mirage.Mir.Survivors
import Mirage.Mir.Simplify
import Mirage.Mir.TrivialParams
import Mirage.Mir.PeepholeSound
