/-
RpcLoom/Proofs/KeyIndex.lean

Finding the procedures of a type by the keys they were generated for.

Design.  A type looks for a key among its procedures.  The same answers come from an
index that is kept beside the procedures: adding a generated procedure enters its key
with its position, and nothing else touches the index (`IndexedType`).  As long as the
index is exact, every change answers alike with and without it, one that is refused
leaves type and index as they were, and the index is exact afterwards
(`IndexedType.Exact.perform_cases`).

A position says once and for all where its procedure came from: additions give the
positions one after the other, and a replacement keeps the origin (`tagged_change`).  So
the origins of a type are told by the positions that were given (`tagged_changeAll`).

Main result.  `TypeDef.index_agrees`.
-/
import Mathlib.Data.Finmap
import RpcLoom.Proofs.Arenas

namespace RpcLoom

namespace TypeDef

variable {t : TypeDef} {p : Procedure} {key : SynthKey} {i id : ProcedureId}

/-! ### Where the procedure of a key is -/

/-- The procedure at a position was generated for a key. -/
def MadeAt (t : TypeDef) (key : SynthKey) (i : ProcedureId) : Prop :=
  ∃ p, t.procedure? i = some p ∧ p.origin = .synthesized key

theorem madeAt_push :
    (t.push p).MadeAt key i ↔
      t.MadeAt key i ∨ (i = t.procedures.length ∧ p.origin = .synthesized key) := by
  simp only [MadeAt, procedure?_push_eq_some_iff]
  constructor
  · rintro ⟨q, hq | ⟨rfl, rfl⟩, horigin⟩
    · exact .inl ⟨q, hq, horigin⟩
    · exact .inr ⟨rfl, horigin⟩
  · rintro (⟨q, hq, horigin⟩ | ⟨rfl, horigin⟩)
    · exact ⟨q, .inl hq, horigin⟩
    · exact ⟨p, .inr ⟨rfl, rfl⟩, horigin⟩

/-- A procedure of the same origin in the place of another one is generated for the same key. -/
theorem madeAt_modify {old : Procedure} (hold : t.procedure? id = some old)
    (hsame : old.origin = p.origin) :
    (t.modify id fun _ => p).MadeAt key i ↔ t.MadeAt key i := by
  simp only [MadeAt, procedure?_modify]
  by_cases hi : id = i
  · subst hi
    simp only [if_true, hold, Option.map_some, Option.some.injEq, exists_eq_left', hsame]
  · simp only [if_neg hi]

/-! ### Positions that were given -/

/-- What a change answers. -/
inductive Reply where
  /-- The position of the procedure that was added. -/
  | placed (id : ProcedureId)
  /-- The procedure that was replaced. -/
  | took (old : Procedure)

/-- What a change of a type answers, or why it is refused. -/
def reply (t : TypeDef) : Change → Except DeclError Reply
  | .add p => (t.add p).map fun added => .placed added.2
  | .replace id p => (t.replace id p).map fun replaced => .took replaced.2

/-- The position that a change gives, and the procedure it gives it to. -/
def placed (t : TypeDef) : Change → List (ProcedureId × Procedure)
  | .add p =>
    match t.add p with
    | .ok (_, id) => [(id, p)]
    | .error _ => []
  | .replace _ _ => []

/-- The positions that changes give, each with the procedure it is given to, in order. -/
def given (t : TypeDef) : List Change → List (ProcedureId × Procedure)
  | [] => []
  | c :: cs => t.placed c ++ (t.change c).given cs

/-- The origins of the procedures, with their positions. -/
def tagged (t : TypeDef) : List (Origin × ProcedureId) := (t.procedures.map (·.origin)).zipIdx

/-- A position that was given, with the origin of the procedure it was given to. -/
def tag (g : ProcedureId × Procedure) : Origin × ProcedureId := (g.2.origin, g.1)

theorem tagged_push (t : TypeDef) (p : Procedure) :
    (t.push p).tagged = t.tagged ++ [tag (t.procedures.length, p)] := by
  show ((t.procedures ++ [p]).map (·.origin)).zipIdx = _
  rw [List.map_append, List.zipIdx_append, List.length_map, Nat.zero_add]
  rfl

/-- A change gives a position at the end, or none, and leaves all origins as they are. -/
theorem tagged_change (t : TypeDef) (c : Change) :
    (t.change c).tagged = t.tagged ++ (t.placed c).map tag := by
  cases c with
  | add p =>
    rw [change, placed]
    cases hadd : t.add p with
    | error e => exact (List.append_nil _).symm
    | ok added =>
      obtain ⟨u, id⟩ := added
      obtain ⟨rfl, rfl⟩ := eq_of_add hadd
      exact t.tagged_push p
  | replace id p =>
    rw [placed, List.map_nil, List.append_nil]
    obtain ⟨old, hok, hold, hchange⟩ | ⟨-, hchange⟩ := t.change_replace_cases id p
    · obtain ⟨-, hsame, -⟩ := replace_eq_ok_iff.mp hok
      rw [hchange, tagged, tagged, Job.origins_modify]
      intro q hq
      obtain rfl := Option.some.inj (hold.symm.trans hq)
      exact hsame.symm
    · rw [hchange]

theorem tagged_changeAll (t : TypeDef) (cs : List Change) :
    (t.changeAll cs).tagged = t.tagged ++ (t.given cs).map tag := by
  induction cs generalizing t with
  | nil => exact (List.append_nil _).symm
  | cons c cs ih =>
    show ((t.change c).changeAll cs).tagged = _
    rw [ih, tagged_change, given, List.map_append, List.append_assoc]

/-- The positions of the declared procedures are told by the origins. -/
theorem declared_map_fst (t : TypeDef) :
    t.declared.map (·.1) = (t.tagged.filter (·.1 == .declared)).map (·.2) := by
  rw [declared, tagged, List.zipIdx_map, List.filter_map, List.map_map, List.map_map]
  rfl

theorem filter_map_tag (gs : List (ProcedureId × Procedure)) :
    ((gs.map tag).filter (·.1 == .declared)).map (·.2) =
      (gs.filter (·.2.isDeclared)).map (·.1) := by
  rw [List.filter_map, List.map_map]
  rfl

end TypeDef

/-! ### An index beside the procedures -/

/-- A type, and an index of the positions of its generated procedures by their keys. -/
structure IndexedType where
  type : TypeDef
  index : Finmap fun _ : SynthKey => ProcedureId

namespace IndexedType

open TypeDef (Change Reply)

variable {x : IndexedType}

/-- A type without procedures. -/
def empty (name : String) (base : Option String) : IndexedType := ⟨.empty name base, ∅⟩

/-- The position that the index has for a key. -/
def find? (x : IndexedType) (key : SynthKey) : Option ProcedureId := x.index.lookup key

/-- Enters the key of a generated procedure, which must be new, with the position at the end. -/
def enter (p : Procedure) : EStateM DeclError IndexedType Unit := do
  let x ← get
  match p.origin with
  | .declared => pure ()
  | .synthesized key =>
    if (x.find? key).isSome then throw (.duplicateSynthesized x.type.name p.name)
    else set { x with index := x.index.insert key x.type.procedures.length }

/-- Adds a procedure at the end and gives its position. -/
def add (p : Procedure) : EStateM DeclError IndexedType ProcedureId := do
  let x ← get
  if (x.type.findSignature? p.signature).isSome then
    throw (.duplicateSignature x.type.name p.signature.text)
  else
    enter p
    modifyGet fun x => (x.type.procedures.length, { x with type := x.type.push p })

/-- Puts a procedure in the place of one of the same origin, and gives that one. -/
def replace (id : ProcedureId) (p : Procedure) : EStateM DeclError IndexedType Procedure := do
  let x ← get
  match x.type.procedure? id with
  | none => throw (.procedureNotFound x.type.name id)
  | some old =>
    if old.origin = p.origin then
      set { x with type := x.type.modify id fun _ => p }
      return old
    else throw (.originMismatch x.type.name p.name)

/-- Makes a change. -/
def perform : Change → EStateM DeclError IndexedType Reply
  | .add p => .placed <$> add p
  | .replace id p => .took <$> replace id p

/-- The type and the index after a change, also if it is refused. -/
def change (x : IndexedType) (c : Change) : IndexedType :=
  match perform c x with
  | .ok _ y => y
  | .error _ y => y

/-- The type and the index after several changes. -/
def changeAll (x : IndexedType) (cs : List Change) : IndexedType := cs.foldl change x

/-- The index has for each key the position of the procedure that was generated for it. -/
def Exact (x : IndexedType) : Prop := ∀ key id, x.find? key = some id ↔ x.type.MadeAt key id

theorem exact_empty (name : String) (base : Option String) : (empty name base).Exact := by
  intro key id
  constructor
  · intro h
    cases (Finmap.lookup_empty key).symm.trans h
  · rintro ⟨p, hp, -⟩
    cases hp

/-- Where the index is exact, the type finds the same. -/
theorem Exact.findSynthesized?_eq (hx : x.Exact) (key : SynthKey) :
    x.type.findSynthesized? key = x.find? key := by
  cases hfound : x.type.findSynthesized? key with
  | some id => exact ((hx key id).mpr (TypeDef.procedure?_of_findSynthesized? hfound)).symm
  | none =>
    cases hindex : x.find? key with
    | none => rfl
    | some id =>
      obtain ⟨p, hp, horigin⟩ := (hx key id).mp hindex
      exact absurd horigin (TypeDef.findSynthesized?_eq_none.mp hfound id p hp)

/-- A declared procedure may be added without a look at the index. -/
theorem Exact.push (hx : x.Exact) {p : Procedure} (hp : p.origin = .declared) :
    Exact ⟨x.type.push p, x.index⟩ := by
  intro key id
  refine (hx key id).trans (Iff.trans ?_ TypeDef.madeAt_push.symm)
  rw [hp]
  exact ⟨.inl, fun h => h.resolve_right fun hnew => by cases hnew.2⟩

/-- A generated procedure may be added after its key was entered. -/
theorem Exact.insert (hx : x.Exact) {p : Procedure} {key : SynthKey}
    (hp : p.origin = .synthesized key) (hnew : x.find? key = none) :
    Exact ⟨x.type.push p, x.index.insert key x.type.procedures.length⟩ := by
  intro other id
  rw [find?, TypeDef.madeAt_push, hp]
  by_cases hother : other = key
  · subst hother
    rw [Finmap.lookup_insert, Option.some.injEq, ← hx, hnew]
    constructor
    · rintro rfl
      exact .inr ⟨rfl, rfl⟩
    · rintro (h | ⟨rfl, -⟩)
      · cases h
      · rfl
  · rw [Finmap.lookup_insert_of_ne _ hother]
    refine (hx other id).trans ⟨.inl, fun h => h.resolve_right ?_⟩
    rintro ⟨-, ⟨⟩⟩
    exact hother rfl

/-! ### One change -/

theorem enter_eq (p : Procedure) (x : IndexedType) :
    enter p x =
      match p.origin with
      | .declared => .ok () x
      | .synthesized key =>
        if (x.find? key).isSome then .error (.duplicateSynthesized x.type.name p.name) x
        else .ok () { x with index := x.index.insert key x.type.procedures.length } := by
  show (match p.origin with
    | .declared => pure ()
    | .synthesized key =>
      if (x.find? key).isSome then throw (.duplicateSynthesized x.type.name p.name)
      else set { x with index := x.index.insert key x.type.procedures.length } :
    EStateM DeclError IndexedType Unit) x = _
  cases p.origin with
  | declared => rfl
  | synthesized key => cases htaken : (x.find? key).isSome <;> simp only [htaken] <;> rfl

theorem add_of_signed {p : Procedure} (h : (x.type.findSignature? p.signature).isSome = true) :
    add p x = .error (.duplicateSignature x.type.name p.signature.text) x := by
  show (if (x.type.findSignature? p.signature).isSome then _ else _ :
    EStateM DeclError IndexedType ProcedureId) x = _
  rw [if_pos h]
  rfl

theorem add_of_unsigned {p : Procedure}
    (h : ¬ (x.type.findSignature? p.signature).isSome = true) :
    add p x =
      match enter p x with
      | .ok _ y => .ok y.type.procedures.length { y with type := y.type.push p }
      | .error e y => .error e y := by
  show (if (x.type.findSignature? p.signature).isSome then _ else _ :
    EStateM DeclError IndexedType ProcedureId) x = _
  rw [if_neg h]
  show EStateM.bind (enter p) _ x = _
  rw [EStateM.bind]
  cases enter p x <;> rfl

/-- Adding with an exact index answers as adding without one.  The index is exact afterwards, and
what is refused changes nothing. -/
theorem Exact.add_cases (hx : x.Exact) (p : Procedure) :
    (∃ id y, add p x = .ok id y ∧ x.type.add p = .ok (y.type, id) ∧ y.Exact) ∨
    ∃ e, add p x = .error e x ∧ x.type.add p = .error e := by
  by_cases hsigned : (x.type.findSignature? p.signature).isSome = true
  · exact .inr ⟨_, add_of_signed hsigned, if_pos hsigned⟩
  · rw [add_of_unsigned hsigned, enter_eq, TypeDef.add, if_neg hsigned]
    cases hp : p.origin with
    | declared => exact .inl ⟨_, _, rfl, rfl, hx.push hp⟩
    | synthesized key =>
      simp only [hx.findSynthesized?_eq]
      cases hfound : x.find? key with
      | some k => exact .inr ⟨_, rfl, rfl⟩
      | none => exact .inl ⟨_, _, rfl, rfl, hx.insert hp hfound⟩

theorem replace_eq (id : ProcedureId) (p : Procedure) (x : IndexedType) :
    replace id p x =
      match x.type.replace id p with
      | .ok (t, old) => .ok old { x with type := t }
      | .error e => .error e x := by
  show (match x.type.procedure? id with
    | none => throw (.procedureNotFound x.type.name id)
    | some old =>
      if old.origin = p.origin then do
        set { x with type := x.type.modify id fun _ => p }
        return old
      else throw (.originMismatch x.type.name p.name) :
    EStateM DeclError IndexedType Procedure) x = _
  rw [TypeDef.replace]
  cases x.type.procedure? id with
  | none => rfl
  | some old =>
    show (if old.origin = p.origin then _ else _ : EStateM DeclError IndexedType Procedure) x = _
    by_cases hsame : old.origin = p.origin
    · rw [if_pos hsame]
      simp only [if_pos hsame]
      rfl
    · rw [if_neg hsame]
      simp only [if_neg hsame]
      rfl

/-- Replacing with an exact index answers as replacing without one.  The index is exact afterwards,
and what is refused changes nothing. -/
theorem Exact.replace_cases (hx : x.Exact) (id : ProcedureId) (p : Procedure) :
    (∃ old y, replace id p x = .ok old y ∧ x.type.replace id p = .ok (y.type, old) ∧ y.Exact) ∨
    ∃ e, replace id p x = .error e x ∧ x.type.replace id p = .error e := by
  rw [replace_eq]
  cases hreplace : x.type.replace id p with
  | error e => exact .inr ⟨e, rfl, rfl⟩
  | ok replaced =>
    obtain ⟨t, old⟩ := replaced
    obtain ⟨hold, hsame, rfl⟩ := TypeDef.replace_eq_ok_iff.mp hreplace
    refine .inl ⟨old, _, rfl, rfl, fun key i => ?_⟩
    exact (hx key i).trans (TypeDef.madeAt_modify hold hsame).symm

/-- A change with an exact index answers as it does without one and leaves the same type.  The index
is exact afterwards, and what is refused changes nothing. -/
theorem Exact.perform_cases (hx : x.Exact) (c : Change) :
    (∃ r y, perform c x = .ok r y ∧ x.type.reply c = .ok r ∧ y.type = x.type.change c ∧ y.Exact) ∨
    ∃ e, perform c x = .error e x ∧ x.type.reply c = .error e ∧ x.type.change c = x.type := by
  cases c with
  | add p =>
    rw [TypeDef.reply, TypeDef.change]
    obtain ⟨id, y, hadd, hadd', hy⟩ | ⟨e, hadd, hadd'⟩ := hx.add_cases p
    · refine .inl ⟨.placed id, y, ?_, by rw [hadd']; rfl, by rw [hadd'], hy⟩
      show EStateM.map _ (add p) x = _
      rw [EStateM.map, hadd]
    · refine .inr ⟨e, ?_, by rw [hadd']; rfl, by rw [hadd']⟩
      show EStateM.map _ (add p) x = _
      rw [EStateM.map, hadd]
  | replace id p =>
    rw [TypeDef.reply, TypeDef.change]
    obtain ⟨old, y, hreplace, hreplace', hy⟩ | ⟨e, hreplace, hreplace'⟩ := hx.replace_cases id p
    · refine .inl ⟨.took old, y, ?_, by rw [hreplace']; rfl, by rw [hreplace'], hy⟩
      show EStateM.map _ (replace id p) x = _
      rw [EStateM.map, hreplace]
    · refine .inr ⟨e, ?_, by rw [hreplace']; rfl, by rw [hreplace']⟩
      show EStateM.map _ (replace id p) x = _
      rw [EStateM.map, hreplace]

/-! ### Several changes -/

theorem Exact.change (hx : x.Exact) (c : Change) :
    (x.change c).type = x.type.change c ∧ (x.change c).Exact := by
  rw [IndexedType.change]
  obtain ⟨r, y, hok, -, htype, hy⟩ | ⟨e, he, -, htype⟩ := hx.perform_cases c
  · rw [hok]
    exact ⟨htype, hy⟩
  · rw [he]
    exact ⟨htype.symm, hx⟩

theorem Exact.changeAll (hx : x.Exact) (cs : List Change) :
    (x.changeAll cs).type = x.type.changeAll cs ∧ (x.changeAll cs).Exact := by
  induction cs generalizing x with
  | nil => exact ⟨rfl, hx⟩
  | cons c cs ih =>
    obtain ⟨htype, hexact⟩ := hx.change c
    obtain ⟨htypes, hexacts⟩ := ih hexact
    refine ⟨htypes.trans ?_, hexacts⟩
    rw [htype]
    rfl

end IndexedType

/-! ### All changes from the start -/

namespace TypeDef

/-- A type agrees with an index beside it and with the positions that were given in it. -/
structure IndexAgrees (t : TypeDef) (x : IndexedType) (given : List (ProcedureId × Procedure)) :
    Prop where
  /-- The type is the same with the index and without. -/
  type : x.type = t
  /-- Looking for a key finds the procedure that was generated for it. -/
  finds : ∀ key id, t.findSynthesized? key = some id ↔ t.MadeAt key id
  /-- Looking into the index finds the same. -/
  index : ∀ key, x.find? key = t.findSynthesized? key
  /-- No two procedures were generated for one key. -/
  once : ∀ key i j, t.MadeAt key i → t.MadeAt key j → i = j
  /-- A change answers alike with the index and without; if it is refused, type and index stay. -/
  answers : ∀ c, (∃ r y, IndexedType.perform c x = .ok r y ∧ t.reply c = .ok r) ∨
    ∃ e, IndexedType.perform c x = .error e x ∧ t.reply c = .error e ∧ t.change c = t
  /-- At a position that was given is a procedure of the origin that it was given to. -/
  kept : ∀ g ∈ given, ∃ q, t.procedure? g.1 = some q ∧ q.origin = g.2.origin
  /-- The declared procedures are where positions were given to declared ones, in that order. -/
  declared : t.declared.map (·.1) = (given.filter (·.2.isDeclared)).map (·.1)

/-- A type that started empty agrees with the index that was kept beside it, and with the positions
that were given in it, whatever procedures were added and replaced. -/
theorem index_agrees (name : String) (base : Option String) (cs : List Change) :
    ((empty name base).changeAll cs).IndexAgrees ((IndexedType.empty name base).changeAll cs)
      ((empty name base).given cs) := by
  obtain ⟨htype, hexact⟩ := (IndexedType.exact_empty name base).changeAll cs
  have htagged : ((empty name base).changeAll cs).tagged = ((empty name base).given cs).map tag :=
    tagged_changeAll (empty name base) cs
  have hsame : ((IndexedType.empty name base).changeAll cs).type =
    (empty name base).changeAll cs := htype
  rw [← hsame] at htagged ⊢
  generalize (IndexedType.empty name base).changeAll cs = x at htagged hexact
  refine ⟨rfl, fun key id => ?_, fun key => (hexact.findSynthesized?_eq key).symm,
    fun key i j hi hj => ?_, fun c => ?_, fun g hg => ?_, ?_⟩
  · rw [hexact.findSynthesized?_eq]
    exact hexact key id
  · exact Option.some.inj (((hexact key i).mpr hi).symm.trans ((hexact key j).mpr hj))
  · obtain ⟨r, y, hok, hreply, -⟩ | ⟨e, he, hreply, hchange⟩ := hexact.perform_cases c
    · exact .inl ⟨r, y, hok, hreply⟩
    · exact .inr ⟨e, he, hreply, hchange⟩
  · have hmem : tag g ∈ x.type.tagged := by
      rw [htagged]
      exact List.mem_map_of_mem hg
    have horigin : (x.type.procedures.map (·.origin))[g.1]? = some g.2.origin :=
      List.mem_zipIdx_iff_getElem?.mp hmem
    rw [List.getElem?_map] at horigin
    exact Option.map_eq_some_iff.mp horigin
  · rw [declared_map_fst, htagged, filter_map_tag]

end TypeDef

namespace Sample

/-- The logic generated for a declared procedure. -/
def sealing : Procedure := .synthesize ⟨.logic, ⟨"Sign", []⟩⟩ .hidden [] .justLeave

/-- Changes of a type, of which two are refused: the key of the logic is taken already, and a
declared procedure does not come from where the logic came from. -/
def filing : List TypeDef.Change :=
  [.add (.declare "Sign"), .add sealing, .add { sealing with name := "Stamp" },
    .replace 1 (.declare "Seal"), .replace 0 (.declare "File"), .add (.declare "Post")]

/-- The type then. -/
def cabinet : TypeDef := (TypeDef.empty "Cabinet" none).changeAll filing

end Sample

open Sample in
/-- The logic is found where it was added, and the declared procedures stand before and behind
it. -/
theorem TypeDef.index_agrees_cabinet :
    (TypeDef.empty "Cabinet" none).given filing =
        [(0, .declare "Sign"), (1, sealing), (2, .declare "Post")] ∧
      cabinet.findSynthesized? ⟨.logic, ⟨"Sign", []⟩⟩ = some 1 ∧
      cabinet.declared.map (·.1) = [0, 2] := by
  have hagrees := TypeDef.index_agrees "Cabinet" none filing
  have hgiven : (TypeDef.empty "Cabinet" none).given filing =
      [(0, .declare "Sign"), (1, sealing), (2, .declare "Post")] := by rfl
  have hmade : cabinet.MadeAt ⟨.logic, ⟨"Sign", []⟩⟩ 1 := ⟨sealing, by rfl, rfl⟩
  refine ⟨hgiven, (hagrees.finds _ 1).mpr hmade, hagrees.declared.trans ?_⟩
  rw [hgiven]
  rfl

end RpcLoom
