import Mathlib.Data.List.Forall2
import StyleValues.CommandLine.Run
import StyleValues.Proofs.CommandLine.Files
import StyleValues.Proofs.Text.Cutting

/-!
# Whole results or none

What effects leave behind is read off the effects: what they show on the
standard output, and which files they fill. One effect is performed at a time,
and what two runs of effects leave behind is what the two leave behind
together as long as no file is filled twice (`Host.Performed.append`). All
checks of an invocation come before its first result, so an invocation either
delivers all of its results or leaves nothing but records in its log.
-/

set_option autoImplicit false

namespace StyleValues

/-! ### Scoped arguments -/

/-- An argument and the message that it stands for: a name and a value around the first equals sign,
neither of them empty. -/
inductive ScopedArgument : Text → Message → Prop
  | pair {name value : Text} : '=' ∉ name → name ≠ [] → value ≠ [] →
    ScopedArgument (name ++ '=' :: value) (.scopedName name value)

theorem readScoped_eq_ok_iff {argument : Text} {m : Message} :
    readScoped argument = .ok m ↔ ScopedArgument argument m := by
  constructor
  · intro h
    rw [readScoped] at h
    split at h
    · next name value hbreak =>
      obtain ⟨rfl, hfirst⟩ := breakAt?_singleton_eq_some_iff.mp hbreak
      split at h
      · cases h
      · next hempty =>
        have hne : name ≠ [] ∧ value ≠ [] := by simpa using hempty
        cases h
        exact .pair hfirst hne.1 hne.2
    · cases h
  · rintro ⟨hfirst, hname, hvalue⟩
    rw [readScoped, breakAt?_singleton_eq_some_iff.mpr ⟨rfl, hfirst⟩]
    simp [hname, hvalue]

theorem mapM_eq_ok_iff {α β ε : Type} {f : α → Except ε β} {xs : List α} {ys : List β} :
    xs.mapM f = .ok ys ↔ List.Forall₂ (fun x y => f x = .ok y) xs ys := by
  induction xs generalizing ys with
  | nil =>
    rw [List.forall₂_nil_left_iff, List.mapM_nil]
    constructor
    · intro h
      cases h
      rfl
    · rintro rfl
      rfl
  | cons x xs ih =>
    rw [List.mapM_cons, List.forall₂_cons_left_iff]
    cases hx : f x with
    | error fault => exact iff_of_false nofun fun ⟨_, _, h, _⟩ => nomatch h
    | ok y =>
      cases hxs : xs.mapM f with
      | error fault =>
        refine iff_of_false nofun ?_
        rintro ⟨_, rest, -, hrest, -⟩
        rw [← ih, hxs] at hrest
        cases hrest
      | ok rest =>
        constructor
        · intro h
          cases h
          exact ⟨y, rest, rfl, ih.mp hxs, rfl⟩
        · rintro ⟨_, _, hy, hrest, rfl⟩
          cases hy
          rw [← ih, hxs] at hrest
          cases hrest
          rfl

namespace Options

variable {o : Options}

theorem scopedMessages_eq_ok_iff {input : List Message} :
    o.scopedMessages = .ok input ↔ List.Forall₂ ScopedArgument o.scopedNames input := by
  rw [scopedMessages, mapM_eq_ok_iff]
  simp only [readScoped_eq_ok_iff]

/-- There are messages just if every argument stands for one. -/
theorem exists_scopedMessages_iff : (∃ input, o.scopedMessages = .ok input) ↔
    ∀ argument ∈ o.scopedNames, ∃ m, ScopedArgument argument m := by
  simp only [scopedMessages_eq_ok_iff]
  induction o.scopedNames with
  | nil => simp
  | cons argument rest ih =>
    rw [List.forall_mem_cons, ← ih]
    constructor
    · rintro ⟨_, hinput⟩
      cases hinput with
      | cons hm hrest => exact ⟨⟨_, hm⟩, _, hrest⟩
    · rintro ⟨⟨m, hm⟩, input, hrest⟩
      exact ⟨m :: input, .cons hm hrest⟩

end Options

/-! ### Effects one after the other -/

namespace Effect

def shown : Effect → Text
  | .write .standard t => t
  | _ => []

def filled? : Effect → Option (Text × Text)
  | .write (.file path) t => some (path, t)
  | _ => none

@[simp] theorem shown_record (r : Record) : (record r).shown = [] := rfl
@[simp] theorem shown_warn (line : Text) : (warn line).shown = [] := rfl
@[simp] theorem filled?_record (r : Record) : (record r).filled? = none := rfl
@[simp] theorem filled?_warn (line : Text) : (warn line).filled? = none := rfl

end Effect

def filledPaths (es : List Effect) : List Text := (es.filterMap Effect.filled?).map Prod.fst

theorem filledPaths_append (es fs : List Effect) :
    filledPaths (es ++ fs) = filledPaths es ++ filledPaths fs := by
  rw [filledPaths, List.filterMap_append, List.map_append, filledPaths, filledPaths]

theorem filled_records (records : List Record) (es : List Effect) :
    (records.map Effect.record ++ es).filterMap Effect.filled? = es.filterMap Effect.filled? := by
  simp [List.filterMap_map, Function.comp_def]

theorem filledPaths_records (records : List Record) (es : List Effect) :
    filledPaths (records.map .record ++ es) = filledPaths es := by
  rw [filledPaths, filled_records, filledPaths]

namespace Host

structure Performed (log : Option Text) (es : List Effect) (before after : Host) : Prop where
  output : after.output = before.output ++ es.flatMap Effect.shown
  disk : before.disk.Agrees (before.disk.Leads (log.toList ++ filledPaths es)) after.disk
  holds : ∀ file ∈ es.filterMap Effect.filled?, ∀ place, before.disk.target file.1 = .ok place →
    after.disk.content? place = some (.text file.2)

section
variable {log : Option Text} {es fs : List Effect} {h next after : Host}

theorem record_performed (log : Option Text) (h : Host) (r : Record) :
    Performed log [.record r] h (h.record log r) := by
  have hkept : Performed log [.record r] h h := ⟨(List.append_nil _).symm, .refl _ _, nofun⟩
  cases log with
  | none => exact hkept
  | some path =>
    rw [record, Disk.append]
    cases hplace : h.disk.target path with
    | error fault => exact hkept
    | ok place =>
      refine ⟨(List.append_nil _).symm, (Disk.agrees_put hplace _).mono ?_, nofun⟩
      rintro _ rfl
      exact ⟨path, List.mem_cons_self, hplace⟩

theorem Performed.of_records {records : List Record}
    (hp : Performed log (records.map .record ++ es) h next) : Performed log es h next := by
  have hshown :
      (records.map Effect.record ++ es).flatMap Effect.shown = es.flatMap Effect.shown := by
    simp [List.flatMap_map]
  exact ⟨hshown ▸ hp.output, filledPaths_records records es ▸ hp.disk,
    filled_records records es ▸ hp.holds⟩

/-- An effect that does not fail is performed, and the effects behind it are performed then. -/
theorem exists_step (log : Option Text) {e : Effect} (hfail : ∀ f, e ≠ .fail f)
    (hwritable : ∀ path ∈ filledPaths [e], ∃ place, h.disk.target path = .ok place) :
    ∃ next, Performed log [e] h next ∧
      ∀ rest, h.perform log (e :: rest) = next.perform log rest := by
  cases e with
  | record r => exact ⟨_, record_performed log h r, fun _ => rfl⟩
  | warn line =>
    exact ⟨{ h with errors := h.errors ++ line },
      ⟨(List.append_nil _).symm, .refl _ _, nofun⟩, fun _ => rfl⟩
  | fail f => exact absurd rfl (hfail f)
  | write sink t =>
    cases sink with
    | standard =>
      refine ⟨{ h with output := h.output ++ t }, ⟨?_, .refl _ _, nofun⟩, fun _ => rfl⟩
      exact congrArg (h.output ++ ·) (List.append_nil t).symm
    | file path =>
      obtain ⟨place, hplace⟩ := hwritable path List.mem_cons_self
      refine ⟨{ h with disk := h.disk.put place (.text t) }, ⟨?_, ?_, ?_⟩, fun rest => ?_⟩
      · exact (List.append_nil _).symm
      · refine (Disk.agrees_put hplace _).mono ?_
        rintro _ rfl
        exact ⟨path, List.mem_append_right _ List.mem_cons_self, hplace⟩
      · intro file hfile other hother
        obtain rfl : file = (path, t) := List.mem_singleton.mp hfile
        obtain rfl : place = other := Except.ok.inj (hplace.symm.trans hother)
        exact Disk.content?_put_self _ _ _
      · have hwrite : h.disk.write path t = .ok (h.disk.put place (.text t)) :=
          Disk.write_eq_ok_iff.mpr ⟨place, hplace, rfl⟩
        rw [perform, write, hwrite]
        rfl

/-- Two runs of effects leave behind what both do, where no file is filled or logged to twice. -/
theorem Performed.append (he : Performed log es h next) (hf : Performed log fs next after)
    (hapart : (log.toList ++ filledPaths (es ++ fs)).Pairwise h.disk.Apart) :
    Performed log (es ++ fs) h after := by
  rw [filledPaths_append] at hapart
  have hleads : ∀ place, next.disk.Leads (log.toList ++ filledPaths fs) place →
      h.disk.Leads (log.toList ++ filledPaths fs) place := fun _ => he.disk.leads_iff.mp
  refine ⟨?_, ?_, ?_⟩
  · rw [hf.output, he.output, List.flatMap_append, List.append_assoc]
  · rw [filledPaths_append]
    refine (he.disk.mono ?_).trans (hf.disk.mono ?_)
    · rintro place ⟨path, hmem, hplace⟩
      refine ⟨path, ?_, hplace⟩
      rw [← List.append_assoc]
      exact List.mem_append_left _ hmem
    · intro place hplace
      obtain ⟨path, hmem, htarget⟩ := hleads place hplace
      refine ⟨path, ?_, htarget⟩
      rcases List.mem_append.mp hmem with hmem | hmem
      · exact List.mem_append_left _ hmem
      · exact List.mem_append_right _ (List.mem_append_right _ hmem)
  · intro file hfile place hplace
    rw [List.filterMap_append, List.mem_append] at hfile
    rcases hfile with hfile | hfile
    · -- The effects behind do not come to the place of a file that is filled before them.
      have hpath : file.1 ∈ filledPaths es := List.mem_map_of_mem hfile
      rw [List.pairwise_append, List.pairwise_append] at hapart
      obtain ⟨-, ⟨-, -, hfiles⟩, hlog⟩ := hapart
      rw [hf.disk.content? place, he.holds file hfile place hplace]
      intro hcome
      obtain ⟨path, hmem, htarget⟩ := hleads place hcome
      rcases List.mem_append.mp hmem with hmem | hmem
      · exact hlog path hmem _ (List.mem_append_left _ hpath) place htarget hplace
      · exact hfiles _ hpath path hmem place hplace htarget
    · exact hf.holds file hfile place (he.disk.target_eq_ok_iff.mpr hplace)

/-- Effects are all performed if none of them fails, each file can be written, and none is filled or
logged to twice. -/
theorem exists_performed (hfail : ∀ f, .fail f ∉ es)
    (hwritable : ∀ path ∈ filledPaths es, ∃ place, h.disk.target path = .ok place)
    (hapart : (log.toList ++ filledPaths es).Pairwise h.disk.Apart) :
    ∃ after, h.perform log es = (after, none) ∧ Performed log es h after := by
  induction es generalizing h with
  | nil => exact ⟨h, rfl, (List.append_nil _).symm, .refl _ _, nofun⟩
  | cons e rest ih =>
    have hpaths : filledPaths (e :: rest) = filledPaths [e] ++ filledPaths rest :=
      filledPaths_append [e] rest
    have hfirst : ∀ path ∈ filledPaths [e], ∃ place, h.disk.target path = .ok place := by
      intro path hpath
      exact hwritable path (hpaths ▸ List.mem_append_left _ hpath)
    obtain ⟨next, hstep, hperform⟩ :=
      exists_step log (fun f he => hfail f (he ▸ List.mem_cons_self)) hfirst
    -- The step leaves the directories alone, so what can be written and stands apart still does.
    have hlater : ∀ path ∈ filledPaths rest, ∃ place, next.disk.target path = .ok place := by
      intro path hpath
      obtain ⟨place, hplace⟩ := hwritable path (hpaths ▸ List.mem_append_right _ hpath)
      exact ⟨place, hstep.disk.target_eq_ok_iff.mpr hplace⟩
    have hstill : (log.toList ++ filledPaths rest).Pairwise next.disk.Apart := by
      refine List.Pairwise.imp hstep.disk.apart_iff.mpr (hapart.sublist ?_)
      rw [hpaths]
      exact (List.sublist_append_right _ _).append_left _
    obtain ⟨after, hafter, hrest⟩ :=
      ih (fun f hf => hfail f (List.mem_cons_of_mem _ hf)) hlater hstill
    exact ⟨after, (hperform rest).trans hafter, hstep.append hrest hapart⟩

end

end Host

/-! ### Targets -/

/-- The file that a target names. A dash names none, and neither does a target that is not given. -/
def namedFile? (target : Option Text) : Option Text := target.filter fun path => !isStandard path

namespace Effect

theorem shown_write_ofPath (path t : Text) :
    (write (Sink.ofPath path) t).shown = if path = ['-'] then t else [] := by
  by_cases h : path = ['-'] <;> simp [Sink.ofPath, isStandard, shown, h]

theorem filled?_write_ofPath (path t : Text) :
    (write (Sink.ofPath path) t).filled? = (namedFile? (some path)).map fun path => (path, t) := by
  by_cases h : isStandard path <;> simp [Sink.ofPath, namedFile?, Option.filter_some, filled?, h]

end Effect

namespace Options

def resultPaths (o : Options) : List Text :=
  (namedFile? o.output).toList ++ (namedFile? o.messages).toList

/-- The results can be delivered: their files can be written, and no two of them and the log are one
file. -/
structure Deliverable (o : Options) (d : Disk) : Prop where
  writable : ∀ path ∈ o.resultPaths, ∃ place, d.target path = .ok place
  apart : (o.log.toList ++ o.resultPaths).Pairwise d.Apart

end Options

def Resolved.messageText (r : Resolved) : Text := Json.messages r.report.messages ++ ['\n']

namespace Options

section
variable (o : Options) (r : Resolved)

theorem delivery_eq : o.delivery r =
    r.report.warnings.map (fun w => .warn (warningLine w)) ++
      (.write ((o.output.map Sink.ofPath).getD .standard) r.css ::
        (o.messages.toList.map (fun path => .write (Sink.ofPath path) r.messageText) ++
          [.record (finished r.report)])) := rfl

theorem delivery_shown :
    (o.delivery r).flatMap Effect.shown =
      (if namedFile? o.output = none then r.css else []) ++
        if o.messages = some ['-'] then r.messageText else [] := by
  have hout : (Effect.write ((o.output.map Sink.ofPath).getD .standard) r.css).shown =
      if namedFile? o.output = none then r.css else [] := by
    cases o.output with
    | none => rfl
    | some path =>
      refine (Effect.shown_write_ofPath path r.css).trans (if_congr ?_ rfl rfl)
      simp [namedFile?, isStandard]
  rw [delivery_eq, List.flatMap_append, List.flatMap_cons, hout]
  cases o.messages with
  | none => simp
  | some path => simp [Effect.shown_write_ofPath]

theorem delivery_filled :
    (o.delivery r).filterMap Effect.filled? =
      (namedFile? o.output).toList.map (fun path => (path, r.css)) ++
        (namedFile? o.messages).toList.map (fun path => (path, r.messageText)) := by
  have hout : (Effect.write ((o.output.map Sink.ofPath).getD .standard) r.css).filled? =
      (namedFile? o.output).map fun path => (path, r.css) := by
    cases o.output with
    | none => rfl
    | some path => exact Effect.filled?_write_ofPath path r.css
  have hmessages : (o.messages.toList.map fun path =>
        Effect.write (Sink.ofPath path) r.messageText).filterMap Effect.filled? =
      (namedFile? o.messages).toList.map (fun path => (path, r.messageText)) := by
    cases o.messages with
    | none => rfl
    | some path => cases h : namedFile? (some path) <;> simp [Effect.filled?_write_ofPath, h]
  rw [delivery_eq, List.filterMap_append, List.filterMap_cons, hout, List.filterMap_append,
    hmessages]
  cases namedFile? o.output <;> simp [Function.comp_def, List.filterMap_cons]

theorem delivery_filledPaths : filledPaths (o.delivery r) = o.resultPaths := by
  rw [filledPaths, delivery_filled, resultPaths, List.map_append, List.map_map, List.map_map]
  exact congrArg₂ (· ++ ·) (List.map_id _) (List.map_id _)

theorem not_mem_delivery (f : Failure) : .fail f ∉ o.delivery r := by
  simp [delivery_eq]

end

end Options

/-! ### Invocations -/

namespace Command

/-- One of the checks fails: an argument stands for no message, the sheet cannot be read as a text,
or the text is no sheet. -/
def Refused (c : Command) (h : Host) : Prop :=
  (∃ argument ∈ c.options.scopedNames, ∀ m, ¬ ScopedArgument argument m) ∨
    (∃ fault, h.read c.input = .error fault) ∨
      ∃ source fault, h.read c.input = .ok source ∧ parse source = .error fault

section
variable {c : Command} {h : Host}

theorem not_refused_iff :
    ¬ c.Refused h ↔ ∃ input source sheet, c.options.scopedMessages = .ok input ∧
      h.read c.input = .ok source ∧ parse source = .ok sheet := by
  have hscoped : (¬ ∃ argument ∈ c.options.scopedNames, ∀ m, ¬ ScopedArgument argument m) ↔
      ∃ input, c.options.scopedMessages = .ok input := by
    rw [Options.exists_scopedMessages_iff]
    push Not
    rfl
  rw [Refused, not_or, not_or, hscoped]
  constructor
  · rintro ⟨⟨input, hinput⟩, hread, hparse⟩
    cases hsource : h.read c.input with
    | error fault => exact absurd ⟨fault, hsource⟩ hread
    | ok source =>
      cases hsheet : parse source with
      | error fault => exact absurd ⟨source, fault, hsource, hsheet⟩ hparse
      | ok sheet => exact ⟨input, source, sheet, hinput, rfl, hsheet⟩
  · rintro ⟨input, source, sheet, hinput, hsource, hsheet⟩
    refine ⟨⟨input, hinput⟩, ?_, ?_⟩
    · rintro ⟨fault, hfault⟩
      rw [hsource] at hfault
      cases hfault
    · rintro ⟨other, fault, hother, hfault⟩
      obtain rfl : source = other := Except.ok.inj (hsource.symm.trans hother)
      rw [hsheet] at hfault
      cases hfault

/-- Behind the scoped arguments and the reading of the sheet there are only effects. -/
theorem attempt_eq {input : List Message} {source : Text}
    (hinput : c.options.scopedMessages = .ok input) (hsource : h.read c.input = .ok source) :
    c.attempt h = h.perform c.options.log (c.effects input source) := by
  rw [attempt, hinput]
  simp only [hsource]

/-- A command that is refused leaves at most records in its log. -/
theorem attempt_of_refused (hr : c.Refused h) :
    ∃ next f, c.attempt h = (next, some f) ∧ next.output = h.output ∧
      h.disk.Agrees (h.disk.Leads c.options.log.toList) next.disk := by
  cases hinput : c.options.scopedMessages with
  | error f => exact ⟨h, f, by rw [attempt, hinput], rfl, .refl _ _⟩
  | ok input =>
    cases hsource : h.read c.input with
    | error fault =>
      refine ⟨h, .disk fault, ?_, rfl, .refl _ _⟩
      rw [attempt, hinput]
      simp only [hsource]
    | ok source =>
      cases hsheet : parse source with
      | ok sheet =>
        exact absurd hr (not_refused_iff.mpr ⟨input, source, sheet, hinput, hsource, hsheet⟩)
      | error fault =>
        have heffects : c.effects input source =
            [processing c.input source].map .record ++ [.fail (.sheet fault)] := by
          simp [effects, hsheet]
        have hone : h.Performed c.options.log ([processing c.input source].map .record ++ [])
            (h.record c.options.log (processing c.input source)) := Host.record_performed _ h _
        have hrecord := hone.of_records
        refine ⟨_, .sheet fault, ?_, hrecord.output.trans (List.append_nil _), ?_⟩
        · rw [attempt_eq hinput hsource, heffects]
          rfl
        · exact (List.append_nil c.options.log.toList) ▸ hrecord.disk

theorem exists_effects {source : Text} {sheet : Stylesheet} (hsheet : parse source = .ok sheet)
    (c : Command) (input : List Message) :
    ∃ (r : Resolved) (records : List Record), resolveText c.options.config input source = .ok r ∧
      c.effects input source = records.map .record ++ c.options.delivery r := by
  let result := resolve c.options.config input sheet
  refine ⟨{ css := result.1.print, report := result.2 },
    processing c.input source :: Trace.ofRun c.options.config input sheet, ?_, ?_⟩
  · simp only [resolveText, hsheet]
    rfl
  · simp only [effects, hsheet]
    rfl

/-- A command that is not refused delivers all of its results. -/
theorem attempt_of_deliverable {input : List Message} {source : Text} {sheet : Stylesheet}
    (hinput : c.options.scopedMessages = .ok input) (hsource : h.read c.input = .ok source)
    (hsheet : parse source = .ok sheet) (hd : c.options.Deliverable h.disk) :
    ∃ next r, resolveText c.options.config input source = .ok r ∧ c.attempt h = (next, none) ∧
      h.Performed c.options.log (c.options.delivery r) next := by
  obtain ⟨r, records, hr, heffects⟩ := exists_effects hsheet c input
  have hpaths :
      filledPaths (records.map .record ++ c.options.delivery r) = c.options.resultPaths := by
    rw [filledPaths_records, Options.delivery_filledPaths]
  have hfail : ∀ f, .fail f ∉ records.map .record ++ c.options.delivery r := by
    intro f hmem
    rcases List.mem_append.mp hmem with hmem | hmem
    · simp at hmem
    · exact Options.not_mem_delivery _ r f hmem
  obtain ⟨next, hnext, hperformed⟩ :=
    Host.exists_performed hfail (hpaths ▸ hd.writable) (hpaths ▸ hd.apart)
  refine ⟨next, r, hr, ?_, hperformed.of_records⟩
  rw [attempt_eq hinput hsource, heffects]
  exact hnext

end

end Command

/-- An invocation that is refused has exit code 1, prints nothing and touches no file but its log.
Any other whose results can be delivered has exit code 0, prints the sheet and the messages where
they have no files, in this order, fills the files that they have, and touches no others. -/
theorem results_of_run (c : Command) (h : Host) :
    (c.Refused h →
      (c.run h).2 = 1 ∧ (c.run h).1.output = h.output ∧
        ∀ place, ¬ h.disk.Leads c.options.log.toList place →
          (c.run h).1.disk.content? place = h.disk.content? place) ∧
    (¬ c.Refused h → c.options.Deliverable h.disk →
      ∃ input source r,
        List.Forall₂ ScopedArgument c.options.scopedNames input ∧ h.read c.input = .ok source ∧
        resolveText c.options.config input source = .ok r ∧
        (c.run h).2 = 0 ∧
        (c.run h).1.output = h.output ++
          ((if namedFile? c.options.output = none then r.css else []) ++
            if c.options.messages = some ['-'] then r.messageText else []) ∧
        (∀ path, namedFile? c.options.output = some path → (c.run h).1.disk.read path = .ok r.css) ∧
        (∀ path, namedFile? c.options.messages = some path →
          (c.run h).1.disk.read path = .ok r.messageText) ∧
        ∀ place, ¬ h.disk.Leads (c.options.log.toList ++ c.options.resultPaths) place →
          (c.run h).1.disk.content? place = h.disk.content? place) := by
  constructor
  · intro hr
    obtain ⟨next, f, hattempt, houtput, hdisk⟩ := Command.attempt_of_refused hr
    rw [Command.run, hattempt]
    exact ⟨rfl, houtput, hdisk.content?⟩
  · intro hr hd
    obtain ⟨input, source, sheet, hinput, hsource, hsheet⟩ := Command.not_refused_iff.mp hr
    obtain ⟨next, r, hresolve, hattempt, hperformed⟩ :=
      Command.attempt_of_deliverable hinput hsource hsheet hd
    have hfile : ∀ file ∈ (c.options.delivery r).filterMap Effect.filled?,
        next.disk.read file.1 = .ok file.2 := by
      intro file hfile
      have hpath : file.1 ∈ filledPaths (c.options.delivery r) := List.mem_map_of_mem hfile
      rw [Options.delivery_filledPaths] at hpath
      obtain ⟨place, hplace⟩ := hd.writable file.1 hpath
      exact Disk.read_of_content? (hperformed.disk.target_eq_ok_iff.mpr hplace)
        (hperformed.holds file hfile place hplace)
    rw [Options.delivery_filled] at hfile
    have hdisk := hperformed.disk
    rw [Options.delivery_filledPaths] at hdisk
    rw [Command.run, hattempt]
    refine ⟨input, source, r, Options.scopedMessages_eq_ok_iff.mp hinput, hsource, hresolve, rfl,
      ?_, ?_, ?_, hdisk.content?⟩
    · rw [← Options.delivery_shown]
      exact hperformed.output
    · intro path hpath
      exact hfile (path, r.css) (List.mem_append_left _ (by simp [hpath]))
    · intro path hpath
      exact hfile (path, r.messageText) (List.mem_append_right _ (by simp [hpath]))

def hostWith (name t : Text) : Host := { disk := { files := [([name], .text t)] } }

theorem results_of_run_warned :
    let h := hostWith "in".toList "@value".toList
    let options : Options :=
      { output := some "out".toList, messages := some ['-'], log := some "log".toList }
    let refused : Command :=
      { input := "in".toList, options := { options with scopedNames := ["a=".toList] } }
    let c : Command :=
      { input := "in".toList, options := { options with scopedNames := ["a=b=c".toList] } }
    (refused.Refused h ∧ (refused.run h).2 = 1 ∧ (refused.run h).1.output = []) ∧
      ¬ c.Refused h ∧ c.options.Deliverable h.disk ∧ (c.run h).2 = 0 ∧
        ∃ input r, List.Forall₂ ScopedArgument ["a=b=c".toList] input ∧
          resolveText {} input "@value".toList = .ok r ∧ (c.run h).1.output = r.messageText ∧
          (c.run h).1.disk.read "out".toList = .ok r.css := by
  intro h options refused c
  have hrefused : refused.Refused h := by
    refine .inl ⟨"a=".toList, List.mem_singleton_self _, fun m hm => ?_⟩
    exact nomatch readScoped_eq_ok_iff.mpr hm
  have hsheet : parse "@value".toList = .ok { nodes := [.leaf (.atRule valueKeyword []) {}] } := by
    decide +kernel
  have hc : ¬ c.Refused h := Command.not_refused_iff.mpr ⟨_, _, _, rfl, rfl, hsheet⟩
  have hlog : h.disk.target "log".toList = .ok ["log".toList] := by decide
  have hout : h.disk.target "out".toList = .ok ["out".toList] := by decide
  have hd : c.options.Deliverable h.disk := by
    refine ⟨List.forall_mem_singleton.mpr ⟨_, hout⟩, List.pairwise_pair.mpr ?_⟩
    intro place hplace hother
    obtain rfl : ["log".toList] = place := Except.ok.inj (hlog.symm.trans hplace)
    rw [hout] at hother
    exact absurd hother (by decide)
  obtain ⟨hcode, hsilent, -⟩ := (results_of_run refused h).1 hrefused
  obtain ⟨input, source, r, hinput, hsource, hr, hdone, houtput, hfile, -⟩ :=
    (results_of_run c h).2 hc hd
  obtain rfl : "@value".toList = source := Except.ok.inj hsource
  exact ⟨⟨hrefused, hcode, hsilent⟩, hc, hd, hdone, input, r, hinput, hr, houtput, hfile _ rfl⟩

/-- The first equals sign of an argument counts, even if only the second stands between two texts.
A log under the name of a dash is a file, and its last record stands behind a sheet in that file. -/
theorem pair_refused_and_record_in_output :
    ("=a=b".toList = "=a".toList ++ '=' :: ['b'] ∧
      (Command.run { input := "in".toList, options := { scopedNames := ["=a=b".toList] } }
        (hostWith "in".toList "a\x7b\x7d".toList)).2 = 1) ∧
    resolveText {} [] "a\x7b\x7d".toList = .ok { css := "a\x7b\x7d".toList, report := {} } ∧
    (Command.run
      { input := "in".toList, options := { output := some "./-".toList, log := some ['-'] } }
      (hostWith "in".toList "a\x7b\x7d".toList)).1.disk.read "./-".toList =
        .ok "a\x7b\x7d[INFO] icss_values_rs::cli: done: 0 messages, 0 warnings\n".toList := by
  decide +kernel

end StyleValues
