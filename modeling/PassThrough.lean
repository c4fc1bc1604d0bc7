import PassThrough.Files.Tree
import PassThrough.Main
import PassThrough.Source.Builder
import PassThrough.Proofs.Batch
import PassThrough.Proofs.Callback
import PassThrough.Proofs.Suppression
import PassThrough.Proofs.Transparency
import PassThrough.Proofs.Diagnostics
import PassThrough.Proofs.Bounds
import PassThrough.Proofs.StraightChain
import PassThrough.Proofs.Backward
import PassThrough.Proofs.ProgramText
import PassThrough.Proofs.CallSites
import PassThrough.Proofs.Widening
import PassThrough.Proofs.Discovery
import PassThrough.Proofs.Supertypes
import PassThrough.Proofs.Memoised
