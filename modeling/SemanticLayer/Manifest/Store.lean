import SemanticLayer.Manifest.Reader

/-! # Keeping a manifest

A store holds the current manifest, and the document it was read from, if there is one.
-/

namespace SemanticLayer

inductive DocumentError where
  | missing
  | unreadable
  deriving Repr, DecidableEq

/-- The current manifest and the document behind it. -/
structure ManifestStore where
  document : Option String
  manifest : Manifest

namespace ManifestStore

def inMemory (m : Manifest) : ManifestStore := ⟨none, m⟩

def ofDocument (document : Option String) : Except DocumentError ManifestStore :=
  match document with
  | none => .error .missing
  | some text =>
    match Manifest.parse? text with
    | none => .error .unreadable
    | some m => .ok ⟨some text, m⟩

def save (s : ManifestStore) (m : Manifest) : ManifestStore := ⟨s.document.map fun _ => m.render, m⟩

end ManifestStore

end SemanticLayer
