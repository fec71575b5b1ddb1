import SemanticLayer.Proofs.Joins
import SemanticLayer.Proofs.Renaming

/-! # What names refer to

Writing a bare name with its relation does not change what it means, nor does it when further relations are joined
later, as long as they are called otherwise. A dotted name is followed in the same way when it is read and when it
is replaced by a column of a joined model.
-/

namespace SemanticLayer

open Sql List

variable {label relation word : String} {e : CompileError} {rest : DottedName}

namespace Field

variable {f : Field} {name : DottedName}

/-- A field answers to a name if it is called by its last part, and its relation by the others. -/
theorem answersTo_concat {front : DottedName} {last : String} :
    f.answersTo (front ++ [last]) = true ↔ last = f.name ∧ front <:+ f.relationName := by
  cases front with
  | nil => simp [answersTo, DottedName.suffix, DottedName.qualifier?]
  | cons part parts =>
    have long : (part :: parts ++ [last]).length > 1 := by simp
    simp only [answersTo, DottedName.suffix, DottedName.qualifier?, if_pos long, dropLast_concat,
      getLast?_concat, Option.getD_some, Bool.and_eq_true, beq_iff_eq, isSuffixOf_iff_suffix]

theorem answersTo_suffix {last : DottedName} (nonempty : last ≠ []) (part : last <:+ name)
    (answers : f.answersTo name = true) : f.answersTo last = true := by
  obtain ⟨front, rfl⟩ := part
  rw [← dropLast_append_getLast nonempty] at answers ⊢
  rw [← append_assoc, answersTo_concat] at answers
  exact answersTo_concat.mpr ⟨answers.1, (suffix_append front _).trans answers.2⟩

/-- Under an alias, a field answers to no other name of a relation. -/
theorem relation_of_relabel (answers : (f.relabel label).answersTo [relation, word] = true) : relation = label := by
  obtain ⟨_, front, called⟩ := (answersTo_concat : _ ↔ word = _ ∧ [relation] <:+ _).mp answers
  simpa [relationName, relabel] using congrArg getLast? called

end Field

namespace Scope

variable {s : Scope} {name : DottedName} {f : Field} {i : Nat}

section Qualifying

/-- A bare name means the same field if it is written behind the field's relation: no other field of its frame is
called by it, and no frame further in has such a field. -/
theorem resolve_qualified (named : s.Named)
    (meant : s.resolve [word] = .ok (some f)) : s.resolve [f.qualifier, word] = .ok (some f) := by
  have suffix : ∀ g : Field, g.answersTo [f.qualifier, word] = true → g.answersTo [word] = true := fun g =>
    Field.answersTo_suffix (cons_ne_nil _ _) (suffix_cons _ _)
  induction s with
  | nil => cases meant
  | cons frame outer ih =>
    obtain ⟨here, further⟩ := forall_mem_cons.mp named
    have fewer : (frame.fields.filter (·.answersTo [f.qualifier, word])).Sublist
        (frame.fields.filter (·.answersTo [word])) := monotone_filter_right _ suffix
    rw [resolve] at meant ⊢
    split at meant
    · rename_i none
      rw [none] at fewer
      rw [sublist_nil.mp fewer]
      exact ih further meant
    · rename_i single
      cases meant
      rw [single] at fewer
      obtain ⟨member, answers⟩ := mem_filter.mp (single ▸ mem_singleton_self f)
      have found : f ∈ frame.fields.filter (·.answersTo [f.qualifier, word]) :=
        mem_filter.mpr ⟨member, Field.answersTo_qualified (here f member) answers⟩
      rcases sublist_singleton.mp fewer with none | same
      · exact absurd found (none ▸ not_mem_nil)
      · rw [same]
    · cases meant

/-- The scope in which a relation is joined, under an alias, to those of a frame. -/
def join (s : Scope) (i : Nat) (label : String) (fields : List Field) : Scope :=
  s.modify i fun frame => { frame with fields := frame.fields ++ fields.map (Field.relabel label) }

/-- A relation of another name that is joined to a frame does not change what a qualified name means. -/
theorem resolve_join (other : label ≠ relation) (fields : List Field) :
    (s.join i label fields).resolve [relation, word] = s.resolve [relation, word] := by
  have apart : (fields.map (Field.relabel label)).filter (·.answersTo [relation, word]) = [] := by
    refine filter_eq_nil_iff.mpr fun g member answers => ?_
    obtain ⟨f, _, rfl⟩ := mem_map.mp member
    exact other (Field.relation_of_relabel answers).symm
  induction s generalizing i with
  | nil => cases i <;> rfl
  | cons frame outer ih =>
    cases i with
    | zero =>
      change resolve _ ({ frame with fields := frame.fields ++ fields.map (Field.relabel label) } :: outer) = _
      rw [resolve, resolve, filter_append, apart, append_nil]
    | succ i =>
      change resolve _ (frame :: join outer i label fields) = _
      rw [resolve, resolve, ih]

/-- Writing a bare name with its relation keeps what it means, also after relations of other names are joined, each to
any frame of the scope. Fields that answer to a name answer to all its last parts. -/
theorem qualified_keeps_meaning (s : Scope) (word : String) (f : Field) (named : s.Named)
    (meant : s.resolve [word] = .ok (some f)) : s.resolve [f.qualifier, word] = .ok (some f) ∧
    (∀ joins : List (Nat × String × List Field), (∀ j ∈ joins, j.2.1 ≠ f.qualifier) →
      (joins.foldl (fun s j => s.join j.1 j.2.1 j.2.2) s).resolve [f.qualifier, word] = .ok (some f)) ∧
    ∀ (fields : List Field) (name last : DottedName), last ≠ [] → last <:+ name →
      ∀ g ∈ fields.filter (·.answersTo name), g ∈ fields.filter (·.answersTo last) := by
  have qualified := resolve_qualified named meant
  refine ⟨qualified, fun joins others => ?_, fun fields name last nonempty part g member => ?_⟩
  · clear named meant
    induction joins generalizing s with
    | nil => exact qualified
    | cons j joins ih =>
      obtain ⟨first, rest⟩ := forall_mem_cons.mp others
      exact ih _ ((resolve_join first j.2.2).trans qualified) rest
  · obtain ⟨listed, answers⟩ := mem_filter.mp member
    exact mem_filter.mpr ⟨listed, Field.answersTo_suffix nonempty part answers⟩

/-- The identity of an album `a`, read from inside a query over orders, means the same behind its relation, also once a
band is joined to the album; by itself it has become ambiguous then. -/
theorem album_id_qualified : let id : Field := (Field.plain ⟨"mdl", "test", "Album"⟩ "id" "integer").relabel "a"
    let band : Field := .plain ⟨"mdl", "test", "Band"⟩ "id" "integer"
    let s : Scope := [⟨[.plain ⟨"mdl", "test", "Orders"⟩ "status" "varchar"], []⟩, ⟨[id], []⟩]
    s.Named ∧ s.resolve ["id"] = .ok (some id) ∧ s.resolve ["a", "id"] = .ok (some id) ∧
      (s.join 1 "b" [band]).resolve ["a", "id"] = .ok (some id) ∧
      (s.join 1 "b" [band]).resolve ["id"] = .error (.ambiguousName "id") := by
  intro id band s
  have named : s.Named := by
    unfold Scope.Named
    decide
  have meant : s.resolve ["id"] = .ok (some id) := rfl
  obtain ⟨qualified, joined, _⟩ := qualified_keeps_meaning s "id" id named meant
  exact ⟨named, meant, qualified, joined [(1, "b", [band])] (by decide), rfl⟩

end Qualifying

section Following

theorem resolve_eq_error (failed : s.resolve name = .error e) : e = .ambiguousName (DottedName.render name) := by
  induction s with
  | nil => cases failed
  | cons frame outer ih =>
    rw [resolve] at failed
    split at failed
    · exact ih failed
    · cases failed
    · cases failed
      rfl

theorem cuts_getElem? : (cuts name)[i]? =
    if i + 1 < name.length then some (name.take (i + 1), name.drop (i + 1)) else none := by
  by_cases inside : i + 1 < name.length
  · rw [cuts, headLengths, getElem?_map, getElem?_range' (by omega), if_pos inside, Option.map_some, Nat.one_mul,
      Nat.add_comm]
  · rw [if_neg inside, getElem?_eq_none]
    simp only [cuts, headLengths, length_map, length_range']
    omega

theorem firstHead_eq_error {heads : List (DottedName × DottedName)}
    (failed : s.firstHead heads = .error e) : ∃ text, e = .ambiguousName text := by
  induction heads with
  | nil => cases failed
  | cons first heads ih =>
    obtain ⟨head, behind⟩ := first
    rw [firstHead] at failed
    cases meaning : s.resolve head with
    | error e =>
      rw [meaning] at failed
      cases failed
      exact ⟨_, resolve_eq_error meaning⟩
    | ok field =>
      rw [meaning] at failed
      cases field with
      | some g => cases failed
      | none => exact ih failed

/-- A name leads to a relationship column through its first `k` parts: the whole name and fewer parts mean nothing. -/
structure LeadsThrough (s : Scope) (name : DottedName) (k : Nat) (f : Field) : Prop where
  proper : 0 < k ∧ k < name.length
  whole : s.resolve name = .ok none
  shorter : ∀ j, 0 < j → j < k → s.resolve (name.take j) = .ok none
  head : s.resolve (name.take k) = .ok (some f)
  relationship : f.isRelationship = true

theorem reference_through_iff : s.reference name = .ok (.through f rest) ↔
    ∃ k, rest = name.drop k ∧ s.LeadsThrough name k f := by
  rw [reference_eq_through, ← resolve_eq_none_iff, firstHead_eq_some_iff]
  constructor
  · rintro ⟨whole, ⟨i, head, listed, meant, before⟩, related⟩
    rw [cuts_getElem?] at listed
    split at listed
    · rename_i inside
      cases listed
      refine ⟨i + 1, rfl, ⟨by omega, inside⟩, whole, fun j positive less => ?_, meant, related⟩
      obtain ⟨j, rfl⟩ := Nat.exists_eq_succ_of_ne_zero (Nat.ne_of_gt positive)
      exact before j (by omega) _ (by rw [cuts_getElem?, if_pos (by omega)])
    · cases listed
  · rintro ⟨k, rfl, leads⟩
    obtain ⟨i, rfl⟩ := Nat.exists_eq_succ_of_ne_zero (Nat.ne_of_gt leads.proper.1)
    refine ⟨leads.whole, ⟨i, _, by rw [cuts_getElem?, if_pos leads.proper.2], leads.head, ?_⟩, leads.relationship⟩
    intro j less cut here
    rw [cuts_getElem?, if_pos (by have := leads.proper.2; omega)] at here
    cases here
    exact leads.shorter (j + 1) (by omega) (by omega)

theorem reference_field_iff : s.reference name = .ok (.field f) ↔ s.resolve name = .ok (some f) := by
  rw [reference]
  cases s.resolve name with
  | error e => constructor <;> intro same <;> cases same
  | ok field =>
    cases field with
    | some g => simp [bind, Except.bind, pure, Except.pure]
    | none =>
      constructor <;> intro refers
      · change (s.firstHead (cuts name) >>= _) = _ at refers
        obtain ⟨found, _, refers⟩ := bind_eq_ok_iff.mp refers
        rcases found with _ | ⟨g, rest⟩
        · cases refers
        · cases related : g.isRelationship <;> simp [related, pure, Except.pure] at refers
      · cases refers

theorem reference_eq_error (failed : s.reference name = .error e) : ∃ text, e = .ambiguousName text := by
  rw [reference] at failed
  cases meaning : s.resolve name with
  | error e' =>
    rw [meaning] at failed
    cases failed
    exact ⟨_, resolve_eq_error meaning⟩
  | ok field =>
    rw [meaning] at failed
    cases field with
    | some g => cases failed
    | none =>
      change (s.firstHead (cuts name) >>= _) = _ at failed
      cases found : s.firstHead (cuts name) with
      | error e' =>
        rw [found] at failed
        cases failed
        exact firstHead_eq_error found
      | ok pair =>
        rw [found] at failed
        cases pair <;> cases failed

/-- The field that a name is read as: the one it means as a whole, or the relationship that it leads through. -/
theorem resolveReference_eq_some_iff : s.resolveReference name = .ok (some f) ↔
    s.resolve name = .ok (some f) ∨ ∃ k, s.LeadsThrough name k f := by
  rw [← reference_field_iff]
  have through : (∃ k, s.LeadsThrough name k f) ↔ ∃ rest, s.reference name = .ok (.through f rest) := by
    simp [reference_through_iff]
  rw [through, resolveReference_eq]
  cases s.reference name with
  | error e => exact ⟨nofun, by rintro (⟨⟨⟩⟩ | ⟨_, ⟨⟩⟩)⟩
  | ok r => cases r <;> simp [Functor.map, Except.map, Reference.field?]

end Following

end Scope

section Dereferencing

variable {l : Layer} {f : Field} {s : Scope} {parts : Path} {joins : List RelatedJoin}

theorem dereference_error (refers : s.reference parts.values = .error e) :
    (dereference l s parts).run joins = .error e := by
  rw [dereference_eq, refers]
  rfl

theorem dereference_stays (refers : s.reference parts.values = .ok .nothing ∨
    ∃ f, s.reference parts.values = .ok (.field f)) : (dereference l s parts).run joins = .ok (.path parts, joins) := by
  rw [dereference_eq]
  rcases refers with refers | ⟨f, refers⟩ <;> rw [refers] <;> rfl

/-- A name that goes through a relationship is replaced by a column of its join, or refused. -/
theorem dereference_through (l : Layer) (joins : List RelatedJoin)
    (refers : s.reference parts.values = .ok (.through f rest)) :
    (∃ e, (dereference l s parts).run joins = .error e ∧ e.kind ≠ .ambiguous) ∨
    ∃ column joins', rest = [column] ∧ (dereference l s parts).run joins =
      .ok (.path [.ofName (f.qualifier ++ "_" ++ f.name), .ofName column], joins') := by
  rw [dereference_eq]
  match rest with
  | [] | _ :: _ :: _ =>
    rw [refers]
    exact .inl ⟨_, rfl, nofun⟩
  | [column] =>
    rcases RelatedJoin.ofField_cases l f with ⟨e, failed, other⟩ | ⟨_, target, _, _, _, _, _, _, made⟩
    · simp only [refers, columnThrough, run_lift_bind, ok_bind, failed]
      exact .inl ⟨e, rfl, other⟩
    · simp only [refers, columnThrough, run_lift_bind, ok_bind, made]
      split
      · split
        · split
          · exact .inl ⟨_, rfl, nofun⟩
          · exact .inr ⟨column, _, rfl, rfl⟩
        · exact .inl ⟨_, rfl, nofun⟩
      · exact .inl ⟨_, rfl, nofun⟩

/-- Replacing a dotted name follows the name as reading it does. A name is read as the field it means as a whole, or as
the relationship column that it leads through. Reading and replacing fail with the same text if it is ambiguous. The name
is replaced only if it leads through a relationship column, by its last part behind the join of that column; nothing
else can go wrong than with that join; and a name that is read as a whole, or as nothing, stays. -/
theorem dereference_follows_reference (l : Layer) (s : Scope) (parts : Path) (joins : List RelatedJoin) :
    (∀ f, s.resolveReference parts.values = .ok (some f) ↔
      s.resolve parts.values = .ok (some f) ∨ ∃ k, s.LeadsThrough parts.values k f) ∧
    (∀ text, (dereference l s parts).run joins = .error (.ambiguousName text) ↔
      s.resolveReference parts.values = .error (.ambiguousName text)) ∧
    (∀ e joins', (dereference l s parts).run joins = .ok (e, joins') → (e = .path parts ∧ joins' = joins) ∨
      ∃ k f column, s.resolveReference parts.values = .ok (some f) ∧ s.LeadsThrough parts.values k f ∧
        parts.values.getLast? = some column ∧ e = .path [.ofName (f.qualifier ++ "_" ++ f.name), .ofName column]) ∧
    (∀ e, (dereference l s parts).run joins = .error e → (∀ text, e ≠ .ambiguousName text) →
      ∃ k f, s.resolveReference parts.values = .ok (some f) ∧ s.LeadsThrough parts.values k f) ∧
    ((s.resolveReference parts.values = .ok none ∨
        ∃ f, s.resolveReference parts.values = .ok (some f) ∧ s.resolve parts.values = .ok (some f)) →
      (dereference l s parts).run joins = .ok (.path parts, joins)) := by
  refine ⟨fun f => Scope.resolveReference_eq_some_iff, ?_⟩
  rw [Scope.resolveReference_eq]
  cases refers : s.reference parts.values with
  | error e =>
    rw [dereference_error refers]
    obtain ⟨text, rfl⟩ := Scope.reference_eq_error refers
    refine ⟨fun text' => ?_, nofun, fun e same other => ?_, ?_⟩
    · constructor <;> intro same <;> cases same <;> rfl
    · exact absurd (Except.error.inj same).symm (other text)
    · rintro (⟨⟨⟩⟩ | ⟨_, ⟨⟩, _⟩)
  | ok r =>
    cases r with
    | nothing | field f =>
      rw [dereference_stays (by first | exact .inl refers | exact .inr ⟨f, refers⟩)]
      refine ⟨fun _ => ⟨nofun, nofun⟩, fun e joins' same => .inl ?_, nofun, fun _ => rfl⟩
      cases same
      exact ⟨rfl, rfl⟩
    | through f rest =>
      obtain ⟨k, last, leads⟩ := Scope.reference_through_iff.mp refers
      have apart : ∀ g, s.resolve parts.values ≠ .ok (some g) := by
        rw [leads.whole]
        exact fun _ => nofun
      rcases dereference_through l joins refers with
        ⟨e, failed, other⟩ | ⟨column, joins', rfl, replaced⟩
      · rw [failed]
        refine ⟨fun text => ⟨fun same => ?_, nofun⟩, nofun, fun _ _ _ => ⟨k, f, rfl, leads⟩, ?_⟩
        · cases same
          exact absurd rfl other
        · rintro (⟨⟨⟩⟩ | ⟨g, _, meant⟩)
          exact absurd meant (apart g)
      · rw [replaced]
        have ends : parts.values = parts.values.take k ++ [column] := by rw [last, take_append_drop]
        refine ⟨fun text => ⟨nofun, nofun⟩, fun e joins'' same => ?_, nofun, ?_⟩
        · cases same
          exact .inr ⟨k, f, column, rfl, leads, by rw [ends, getLast?_concat], rfl⟩
        · rintro (⟨⟨⟩⟩ | ⟨g, _, meant⟩)
          exact absurd meant (apart g)

def albumScope : Scope := [⟨Manifest.sampleAlbum.columns.map (Field.ofColumn ⟨"mdl", "test", "Album"⟩), ["Album"]⟩]

/-- Where albums are read, `band.name` leads through the band of the album and becomes a column of its join. -/
theorem band_name_replaced : ∃ k f joins, albumScope.resolveReference ["band", "name"] = .ok (some f) ∧
    albumScope.LeadsThrough ["band", "name"] k f ∧ joins.map RelatedJoin.label = ["Album_band"] ∧
    (dereference Context.sampleLayer albumScope [.ofName "band", .ofName "name"]).run [] =
      .ok (.path [.ofName "Album_band", .ofName "name"], joins) := by
  have run : ∃ r, (dereference Context.sampleLayer albumScope [.ofName "band", .ofName "name"]).run [] = .ok r ∧
      r.2.map RelatedJoin.label = ["Album_band"] ∧ ∃ found, albumScope.resolveReference ["band", "name"] = .ok found ∧
      found.map (fun f => f.qualifier ++ "_" ++ f.name) = some "Album_band" := by
    decide +kernel
  obtain ⟨⟨e, joins⟩, run, labels, found, read, label⟩ := run
  obtain ⟨_, _, replaced, _⟩ := dereference_follows_reference Context.sampleLayer albumScope
    [.ofName "band", .ofName "name"] []
  rcases replaced e joins run with ⟨_, rfl⟩ | ⟨k, f, column, read', leads, last, rfl⟩
  · cases labels
  · cases read.symm.trans read'
    cases last
    have label : f.qualifier ++ "_" ++ f.name = "Album_band" := Option.some.inj label
    rw [label] at run
    exact ⟨k, f, joins, read, leads, labels, run⟩

end Dereferencing

end SemanticLayer
