/-! # Properties

Free texts under names, sorted by name; no name occurs twice.
-/

namespace SemanticLayer

/-- Texts under distinct names, sorted by name. -/
structure Properties where
  entries : List (String × String) := []
  sorted : entries.Pairwise fun a b => a.1 < b.1 := by simp
  deriving Repr, DecidableEq

namespace Properties

def empty : Properties := {}

instance : Inhabited Properties := ⟨empty⟩

def insertEntry (name value : String) : List (String × String) → List (String × String)
  | [] => [(name, value)]
  | (n, v) :: rest =>
    if name < n then (name, value) :: (n, v) :: rest
    else if name = n then (name, value) :: rest
    else (n, v) :: insertEntry name value rest

theorem mem_insertEntry {name value : String} {entries : List (String × String)}
    {e : String × String} (h : e ∈ insertEntry name value entries) : e.1 = name ∨ e ∈ entries := by
  induction entries with
  | nil => simp_all [insertEntry]
  | cons first rest ih =>
    obtain ⟨n, v⟩ := first
    unfold insertEntry at h
    split at h
    · grind
    · split at h <;> grind

theorem pairwise_insertEntry (name value : String) {entries : List (String × String)}
    (h : entries.Pairwise fun a b => a.1 < b.1) : (insertEntry name value entries).Pairwise fun a b => a.1 < b.1 := by
  induction entries with
  | nil => simp [insertEntry]
  | cons first rest ih =>
    obtain ⟨n, v⟩ := first
    obtain ⟨later, tail⟩ := List.pairwise_cons.mp h
    unfold insertEntry
    split
    · rename_i before
      refine List.pairwise_cons.mpr ⟨fun e he => ?_, h⟩
      rcases List.mem_cons.mp he with rfl | he
      · exact before
      · exact String.lt_trans before (later e he)
    · split
      · rename_i same
        exact List.pairwise_cons.mpr ⟨fun e he => same ▸ later e he, tail⟩
      · rename_i notBefore notSame
        refine List.pairwise_cons.mpr ⟨fun e he => ?_, ih tail⟩
        rcases mem_insertEntry he with new | old
        · rw [new]
          exact Std.lt_of_le_of_ne (String.not_lt.mp notBefore) fun eq => notSame eq.symm
        · exact later e old

def insert (p : Properties) (name value : String) : Properties :=
  ⟨insertEntry name value p.entries, pairwise_insertEntry name value p.sorted⟩

/-- Properties of pairs; the last of several texts under one name counts. -/
def ofList (pairs : List (String × String)) : Properties :=
  pairs.foldl (fun p e => p.insert e.1 e.2) empty

end Properties

end SemanticLayer
