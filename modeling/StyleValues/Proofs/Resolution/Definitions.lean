import Mathlib.Data.List.Induction
import StyleValues.Proofs.Resolution.NothingDefined

/-!
# What a sequence of statements means

The statements that are accepted make definitions, one after the other. A name
stands for what the last of its definitions says, and the value of that one is
resolved with the definitions in front of it. Nothing else has to be known of
a run: what it binds, and what it warns of, is read off the definitions.
-/

set_option autoImplicit false

namespace StyleValues

structure Defined where
  name : Text
  origin : Origin
  /-- The value as it is written, or the placeholder of an imported name. -/
  text : Text
deriving DecidableEq, Repr

namespace Defined

def binding (lookup : Text → Option Text) (d : Defined) : Binding where
  name := d.name
  value :=
    match d.origin with
    | .document => substitute lookup d.text
    | .imported _ => d.text
  origin := d.origin

def ofUse (u : ImportUse × Text) : Defined := ⟨u.1.name, .imported u.1.path, u.2⟩

def placeholder? (d : Defined) : Option Text :=
  match d.origin with
  | .document => none
  | .imported _ => some d.text

end Defined

def Allocator.after (a : Allocator) (us : List ImportUse) : Allocator :=
  us.foldl (fun a u => (a.allocate u.name).2) a

/-- The definitions of a statement, the imported ones with the placeholders they get. -/
def Statement.definitions (a : Allocator) (s : Statement) : List Defined :=
  match Definition.read s.params with
  | .error _ => []
  | .ok (.value name value) => [⟨name, .document, value⟩]
  | .ok (.imports _ _) => (allot a s.uses).map Defined.ofUse

def definitionsFrom : Allocator → List Statement → List Defined
  | _, [] => []
  | a, s :: rest => s.definitions a ++ definitionsFrom (a.after s.uses) rest

/-- What a name is bound to by some definitions, the last one first. -/
def meaning? : List Defined → Text → Option Binding
  | [], _ => none
  | d :: earlier, name =>
    if d.name = name then some (d.binding fun t => (meaning? earlier t).map Binding.value)
    else meaning? earlier name

/-! ### Placeholders of a sequence -/

theorem allot_append (a : Allocator) (us vs : List ImportUse) :
    allot a (us ++ vs) = allot a us ++ allot (a.after us) vs := by
  induction us generalizing a with
  | nil => rfl
  | cons u us ih =>
    rw [List.cons_append, allot, allot, ih, List.cons_append]
    rfl

theorem allocator_registerAll (r : Imports) (us : List ImportUse) :
    (r.registerAll us).allocator = r.allocator.after us := by
  induction us generalizing r with
  | nil => rfl
  | cons u us ih => exact ih (r.registerUse u)

theorem placeholders_definitions (a : Allocator) (s : Statement) :
    (s.definitions a).filterMap Defined.placeholder? = (allot a s.uses).map Prod.snd := by
  rw [Statement.definitions, Statement.uses]
  rcases Definition.read s.params with e | ⟨name, value⟩ | ⟨path, names⟩
  · rfl
  · rfl
  · simp only [List.filterMap_map]
    exact congrFun (List.filterMap_eq_map (f := Prod.snd)) _

/-- The imported names have the placeholders that are handed out for all uses together. -/
theorem placeholders_definitionsFrom (a : Allocator) (statements : List Statement) :
    (definitionsFrom a statements).filterMap Defined.placeholder? =
      (allot a (statements.flatMap Statement.uses)).map Prod.snd := by
  induction statements generalizing a with
  | nil => rfl
  | cons s rest ih =>
    rw [definitionsFrom, List.filterMap_append, placeholders_definitions, ih, List.flatMap_cons,
      allot_append, List.map_append]

/-! ### What is bound -/

/-- The definitions one after the other, each with the names that are bound by then. -/
def Bindings.defineAll (bs : Bindings) (ds : List Defined) : Bindings :=
  ds.foldl (fun bs d => bs.define (d.binding bs.value?)) bs

theorem Bindings.defineAll_append (bs : Bindings) (ds es : List Defined) :
    bs.defineAll (ds ++ es) = (bs.defineAll ds).defineAll es := List.foldl_append

section
variable (p : Progress)

theorem bindings_importNames (s : Statement) (path : Text) (names : List ImportedName) :
    (names.foldl (Progress.importName s path) p).bindings =
      p.bindings.defineAll ((allot p.imports.allocator
        (names.map fun n => ⟨path, n.source, n.name, s.anchor⟩)).map Defined.ofUse) := by
  induction names generalizing p with
  | nil => rfl
  | cons n names ih => exact ih (p.importName s path n)

theorem bindings_process (s : Statement) :
    (p.process s).bindings = p.bindings.defineAll (s.definitions p.imports.allocator) := by
  have hu : ∀ path names, Definition.read s.params = .ok (.imports path names) →
      s.uses = names.map fun n => ⟨path, n.source, n.name, s.anchor⟩ := by
    intro path names h
    rw [Statement.uses, h]
  rw [Progress.process, Statement.definitions]
  cases hr : Definition.read s.params with
  | error e => rfl
  | ok definition =>
    cases definition with
    | value name value => rfl
    | imports path names =>
      simp only [hu path names hr]
      exact bindings_importNames p s path names

theorem bindings_processAll (statements : List Statement) :
    (p.processAll statements).bindings =
      p.bindings.defineAll (definitionsFrom p.imports.allocator statements) := by
  induction statements generalizing p with
  | nil => rfl
  | cons s rest ih =>
    have hs : p.processAll (s :: rest) = (p.process s).processAll rest := rfl
    rw [hs, ih, bindings_process, imports_process, allocator_registerAll, definitionsFrom,
      Bindings.defineAll_append]

end

theorem find?_insertInto (b : Binding) (entries : List Binding) (name : Text) :
    (b.insertInto entries).find? (fun c => c.name == name) =
      if b.name = name then some b else entries.find? fun c => c.name == name := by
  induction entries with
  | nil => by_cases hb : b.name = name <;> simp [Binding.insertInto, hb]
  | cons a rest ih =>
    rw [Binding.insertInto]
    by_cases ha : a.name = b.name
    · rw [if_pos ha, List.find?_cons, List.find?_cons, ha]
      by_cases hb : b.name = name
      · simp [hb]
      · simp [hb, beq_eq_false_iff_ne.mpr hb]
    · rw [if_neg ha, List.find?_cons, List.find?_cons, ih]
      by_cases hb : b.name = name
      · have hn : a.name ≠ name := fun h => ha (h.trans hb.symm)
        simp [hb, beq_eq_false_iff_ne.mpr hn]
      · simp [hb]

theorem Bindings.find?_define (bs : Bindings) (b : Binding) (name : Text) :
    (bs.define b).find? name = if b.name = name then some b else bs.find? name :=
  find?_insertInto b bs.entries name

theorem defineAll_append_singleton (ds : List Defined) (d : Defined) :
    Bindings.defineAll {} (ds ++ [d]) =
      (Bindings.defineAll {} ds).define (d.binding (Bindings.defineAll {} ds).value?) := by
  rw [Bindings.defineAll_append]
  rfl

/-- A name is bound by the last of its definitions. -/
theorem find?_defineAll (ds : List Defined) (name : Text) :
    (Bindings.defineAll {} ds).find? name = meaning? ds.reverse name := by
  induction ds using List.reverseRecOn generalizing name with
  | nil => rfl
  | append_singleton ds d ih =>
    have hv : (Bindings.defineAll {} ds).value? =
        fun t => (meaning? ds.reverse t).map Binding.value := by
      funext t
      rw [Bindings.value?, ih]
    rw [defineAll_append_singleton, Bindings.find?_define, List.reverse_append, List.reverse_singleton,
      List.singleton_append, meaning?, ih, hv]
    rfl

/-- The names are bound in the order of their first definitions. -/
theorem names_defineAll (ds : List Defined) :
    (Bindings.defineAll {} ds).entries.map Binding.name = (ds.map Defined.name).eraseDups := by
  induction ds using List.reverseRecOn with
  | nil => rfl
  | append_singleton ds d ih =>
    have hn : (d.binding (Bindings.defineAll {} ds).value?).name = d.name := rfl
    rw [defineAll_append_singleton, Bindings.define, Binding.map_name_insertInto, ih, hn,
      List.map_append, List.map_singleton, List.eraseDups_append, List.removeAll]
    by_cases hm : d.name ∈ ds.map Defined.name
    · rw [if_pos (List.mem_eraseDups.mpr hm), List.filter_cons_of_neg (by simpa using hm)]
      exact (List.append_nil _).symm
    · rw [if_neg (fun h => hm (List.mem_eraseDups.mp h)), List.filter_cons_of_pos (by simpa using hm)]
      rfl

/-! ### What is warned of -/

def Statement.names (s : Statement) : List Text :=
  match Definition.read s.params with
  | .error _ => []
  | .ok (.value name _) => [name]
  | .ok (.imports _ names) => names.map ImportedName.name

def doubtsOf (earlier : List Text) (name : Text) : List WarningKind :=
  (if name.contains '.' || name.contains '#' then [.dotOrHash name] else []) ++
    if earlier.contains name then [.alreadyDeclared name] else []

def doubtsFrom (earlier : List Text) : List Text → List WarningKind
  | [] => []
  | name :: rest => doubtsOf earlier name ++ doubtsFrom (earlier ++ [name]) rest

def Statement.complaints (earlier : List Text) (s : Statement) : List WarningKind :=
  match Definition.read s.params with
  | .error _ => [.invalidDefinition s.params]
  | .ok _ => doubtsFrom earlier s.names

def warningsFrom (earlier : List Text) : List Statement → List Warning
  | [] => []
  | s :: rest =>
    ((s.complaints earlier).map fun kind => { kind, statement := some s.source }) ++
      warningsFrom (earlier ++ s.names) rest

theorem names_definitions (a : Allocator) (s : Statement) :
    (s.definitions a).map Defined.name = s.names := by
  have hu : ∀ us : List ImportUse,
      ((allot a us).map Defined.ofUse).map Defined.name = us.map ImportUse.name := by
    intro us
    conv => rhs; rw [← map_fst_allot a us]
    rw [List.map_map, List.map_map]
    rfl
  rw [Statement.definitions, Statement.uses, Statement.names]
  rcases Definition.read s.params with e | ⟨name, value⟩ | ⟨path, names⟩
  · rfl
  · rfl
  · simp only [hu, List.map_map]
    rfl

theorem names_definitionsFrom (a : Allocator) (statements : List Statement) :
    (definitionsFrom a statements).map Defined.name = statements.flatMap Statement.names := by
  induction statements generalizing a with
  | nil => rfl
  | cons s rest ih =>
    rw [definitionsFrom, List.map_append, names_definitions, ih, List.flatMap_cons]

/-- Whether `earlier` has just the names that are bound. -/
def Bindings.Covers (bs : Bindings) (earlier : List Text) : Prop :=
  ∀ name, (bs.find? name).isSome = earlier.contains name

theorem Bindings.Covers.define {bs : Bindings} {earlier : List Text} (h : bs.Covers earlier)
    (b : Binding) : (bs.define b).Covers (earlier ++ [b.name]) := by
  intro name
  rw [Bindings.find?_define, List.contains_append, ← h name]
  by_cases hb : b.name = name
  · simp [hb]
  · have hb' : name ≠ b.name := fun e => hb e.symm
    simp [hb, hb']

theorem Bindings.Covers.defineAll {bs : Bindings} {earlier : List Text} (h : bs.Covers earlier)
    (ds : List Defined) : (bs.defineAll ds).Covers (earlier ++ ds.map Defined.name) := by
  induction ds generalizing bs earlier with
  | nil => rwa [List.map_nil, List.append_nil]
  | cons d ds ih =>
    have hd := ih (h.define (d.binding bs.value?))
    rwa [List.append_assoc] at hd

section
variable {p : Progress} {earlier : List Text} (h : p.bindings.Covers earlier)
include h

theorem doubts_eq (name : Text) : p.doubts name = doubtsOf earlier name := by
  have hc : (name.any fun c => c == '.' || c == '#') = (name.contains '.' || name.contains '#') := by
    induction name with
    | nil => rfl
    | cons c name ih =>
      rw [List.any_cons, ih, List.contains_cons, List.contains_cons, BEq.comm (a := c) (b := '.'),
        BEq.comm (a := c) (b := '#')]
      simp only [Bool.or_assoc, Bool.or_left_comm]
  rw [Progress.doubts, doubtsOf, hc, h name]

theorem warnings_define (s : Statement) (b : Binding) :
    (p.define s b).warnings = p.warnings ++
      (doubtsOf earlier b.name).map fun kind => { kind, statement := some s.source } := by
  rw [← doubts_eq h]
  rfl

theorem warnings_importNames (s : Statement) (path : Text) (names : List ImportedName) :
    (names.foldl (Progress.importName s path) p).warnings = p.warnings ++
      (doubtsFrom earlier (names.map ImportedName.name)).map fun kind =>
        { kind, statement := some s.source } := by
  induction names generalizing p earlier with
  | nil => exact (List.append_nil _).symm
  | cons n names ih =>
    -- The registry has no part in the warnings of a definition.
    have hw := warnings_define (p := { p with imports := (p.importName s path n).imports }) h s
      ⟨n.name, (p.imports.register path n.source n.name s.anchor).1, .imported path⟩
    have hc : (p.importName s path n).bindings.Covers (earlier ++ [n.name]) := h.define _
    rw [List.foldl_cons, ih hc, List.map_cons, doubtsFrom, List.map_append, ← List.append_assoc]
    exact congrArg (· ++ _) hw

theorem warnings_process (s : Statement) :
    (p.process s).warnings = p.warnings ++
      (s.complaints earlier).map fun kind => { kind, statement := some s.source } := by
  rw [Progress.process, Statement.complaints, Statement.names]
  rcases Definition.read s.params with e | ⟨name, value⟩ | ⟨path, names⟩
  · rfl
  · simp only [warnings_define h, doubtsFrom, List.append_nil]
  · exact warnings_importNames h s path names

theorem warnings_processAll (statements : List Statement) :
    (p.processAll statements).warnings = p.warnings ++ warningsFrom earlier statements := by
  induction statements generalizing p earlier with
  | nil => exact (List.append_nil _).symm
  | cons s rest ih =>
    have hs : p.processAll (s :: rest) = (p.process s).processAll rest := rfl
    have hc : (p.process s).bindings.Covers (earlier ++ s.names) := by
      rw [bindings_process, ← names_definitions p.imports.allocator]
      exact h.defineAll _
    rw [hs, ih hc, warnings_process h, warningsFrom, List.append_assoc]

end

/-- What a run over any statements binds and warns of, and what it imports. The definitions of the
accepted statements say it all; a rejected statement only adds its warning. -/
theorem processAll_meaning (imports : Imports) (statements : List Statement) :
    (({ imports } : Progress).processAll statements).bindings.entries.map Binding.name =
        ((definitionsFrom imports.allocator statements).map Defined.name).eraseDups ∧
      (∀ name, (({ imports } : Progress).processAll statements).bindings.find? name =
        meaning? (definitionsFrom imports.allocator statements).reverse name) ∧
      (({ imports } : Progress).processAll statements).warnings = warningsFrom [] statements ∧
      (definitionsFrom imports.allocator statements).map Defined.name =
        statements.flatMap Statement.names ∧
      (({ imports } : Progress).processAll statements).imports =
        imports.registerAll (statements.flatMap Statement.uses) ∧
      (definitionsFrom imports.allocator statements).filterMap Defined.placeholder? =
        (allot imports.allocator (statements.flatMap Statement.uses)).map Prod.snd ∧
      ∀ (p : Progress) (s : Statement), Rejected s.params →
        (p.process s).bindings = p.bindings ∧ (p.process s).imports = p.imports := by
  have hb := bindings_processAll { imports } statements
  have hc : Bindings.Covers {} [] := fun _ => rfl
  refine ⟨?_, ?_, ?_, ?_, ?_, ?_, ?_⟩
  · rw [hb]
    exact names_defineAll _
  · intro name
    rw [hb]
    exact find?_defineAll _ name
  · exact warnings_processAll (p := { imports }) hc statements
  · exact names_definitionsFrom _ statements
  · exact imports_processAll { imports } statements
  · exact placeholders_definitionsFrom _ statements
  · intro p s hr
    rw [process_of_rejected p hr]
    exact ⟨rfl, rfl⟩

end StyleValues
