import SemanticLayer.Main
import SemanticLayer.Proofs.CachedValues
import SemanticLayer.Proofs.Deployments
import SemanticLayer.Proofs.FunctionNames
import SemanticLayer.Proofs.Implied
import SemanticLayer.Proofs.JoinConditions
import SemanticLayer.Proofs.LargerCaches
import SemanticLayer.Proofs.ManifestText
import SemanticLayer.Proofs.Qualifiers
import SemanticLayer.Proofs.ReadColumns
import SemanticLayer.Proofs.ReadOnly
import SemanticLayer.Proofs.References
import SemanticLayer.Proofs.Serving
import SemanticLayer.Proofs.Support
import SemanticLayer.Proofs.Survivors
import SemanticLayer.Proofs.Truncation
import SemanticLayer.Proofs.ViewCycles
import SemanticLayer.Proofs.Wildcards
import SemanticLayer.Store.Ddl
