import Shader.Emitter.Directive
import Shader.Machine.Run
import Shader.Module.Edit
import Shader.Module.Query
import Shader.Module.Text
import Shader.Table.Lemmas
import Shader.Proofs.Changes
import Shader.Proofs.Building
import Shader.Proofs.Agreement
import Shader.Proofs.Booting
import Shader.Proofs.ExtensionStability
import Shader.Proofs.TypeSoundness
import Shader.Proofs.Scoping
import Shader.Proofs.Emission
import Shader.Proofs.Session
import Shader.Proofs.WellFormedness
import Shader.Proofs.Reaching
import Shader.Proofs.LaneMachine
import Shader.Proofs.Acceptance
import Shader.Proofs.Following
import Shader.Proofs.Compilation
import Shader.Proofs.Decoding
import Shader.Proofs.Deduplication
import Shader.Proofs.Workshop
import Shader.Proofs.Provenance
import Shader.Proofs.Numbering
import Shader.Proofs.Footprint
import Shader.Proofs.Independence
import Shader.Proofs.Paths
import Shader.Proofs.Persistence
import Shader.Proofs.MaskedWrites
import Shader.Proofs.DecimalText
import Shader.Proofs.Legibility
import Shader.Proofs.Disassembly
import Shader.Proofs.TypeRegistry
import Shader.Proofs.MergeTyping
import Shader.Proofs.Materialisation
import Shader.Proofs.RegisterFile
import Shader.Proofs.HeaderGrammar
import Shader.Proofs.Atomicity
import Shader.Proofs.CallExtent
import Shader.Proofs.OutputBlock
import Shader.Proofs.Selection
import Shader.Proofs.AddressChains
import Shader.Proofs.SparseStorage
