import Mathlib.Data.Finset.Sort
import Mathlib.Data.List.Chain
import Mathlib.Order.Lattice
import Relay.Errors
import Relay.Lib.Dict
import Relay.Lib.Machine
import Relay.Lib.Printing

/-!
# Schema compatibility

The records of a topic share a schema, and the schema evolves. A registry decides when a schema is
registered whether it goes with the latest one: backward compatibility is to let the new schema read
old records, forward compatibility the old schema new records, and full compatibility both.

The check looks at names that come and go. A required field may not go, and none may be added. Since
each direction forbids both, the two directions and full compatibility accept the same schemas
(`problem_eq_none_iff`). And no direction looks at a field that stays: one that was optional may
become required, and old records without it cannot be read. This is all that goes wrong: the history
of a topic is readable from each schema to the next exactly when no field that stays becomes
required (`Promotes`).

## Main definitions

* `Schema`, with `backwardOk` and `forwardOk`
* `SchemaRegistry`, with `setMode` and `register`
* `Schema.Reads`: every record valid under the old schema has what the new one requires

## Main results

* `problem_eq_none_iff`: what every mode accepts
* `keepsOptional_iff_reads`: exactly which runs keep a topic readable
-/

namespace Relay

/-- A field of a schema. -/
structure Schema.Field where
  name : String
  required : Bool
  deriving DecidableEq

/-- A schema. -/
structure Schema where
  version : ℤ
  fields : List Schema.Field
  deriving DecidableEq

namespace Schema

/-- `field_names`. -/
def fieldNames (schema : Schema) : Finset String :=
  (schema.fields.map Field.name).toFinset

/-- `required_names`. -/
def requiredNames (schema : Schema) : Finset String :=
  ((schema.fields.filter fun f => f.required).map Field.name).toFinset

/-- The required fields of a schema that another does not have. -/
def addedRequired (old new : Schema) : Finset String :=
  ((new.fields.filter fun f => f.required && decide (f.name ∉ old.fieldNames)).map
    Field.name).toFinset

/-- `_backward_ok`: what is wrong, if anything. -/
def backwardOk (old new : Schema) : Option String :=
  let droppedRequired := old.requiredNames \ new.fieldNames
  if droppedRequired.Nonempty then
    some ("backward broken: required field(s) "
      ++ s!"{Printing.namesText (Printing.sortedNames droppedRequired)} removed, so the new "
      ++ "schema cannot read old records that carried them")
  else if (addedRequired old new).Nonempty then
    some ("backward broken: required field(s) "
      ++ s!"{Printing.namesText (Printing.sortedNames (addedRequired old new))} added with "
      ++ "no default, so old records lack them; make the new field "
      ++ "optional and it is compatible")
  else none

/-- `_forward_ok`. -/
def forwardOk (old new : Schema) : Option String :=
  backwardOk new old

/-- A record, as the set of fields present in it, is valid. -/
def Valid (schema : Schema) (record : Finset String) : Prop :=
  schema.requiredNames ⊆ record ∧ record ⊆ schema.fieldNames

/-- Every record that is valid under the old schema has the fields the new one requires. -/
def Reads (new old : Schema) : Prop :=
  ∀ record, old.Valid record → new.requiredNames ⊆ record

/-- A field that stays and was optional becomes required. -/
def Promotes (old new : Schema) : Prop :=
  ∃ name ∈ new.requiredNames, name ∈ old.fieldNames ∧ name ∉ old.requiredNames

variable {old new : Schema}

theorem requiredNames_subset (schema : Schema) : schema.requiredNames ⊆ schema.fieldNames := by
  intro name hname
  obtain ⟨f, hf, rfl⟩ := List.mem_map.mp (List.mem_toFinset.mp hname)
  exact List.mem_toFinset.mpr (List.mem_map_of_mem (List.mem_filter.mp hf).1)

theorem addedRequired_eq (old new : Schema) :
    addedRequired old new = new.requiredNames \ old.fieldNames := by
  ext name
  simp only [addedRequired, requiredNames, List.mem_toFinset, List.mem_map, List.mem_filter,
    Finset.mem_sdiff, Bool.and_eq_true, decide_eq_true_eq]
  constructor
  · rintro ⟨f, ⟨hf, hrequired, hnew⟩, rfl⟩
    exact ⟨⟨f, ⟨hf, hrequired⟩, rfl⟩, hnew⟩
  · rintro ⟨⟨f, ⟨hf, hrequired⟩, rfl⟩, hnew⟩
    exact ⟨f, ⟨hf, hrequired, hnew⟩, rfl⟩

/-- Nothing is wrong when no required field comes or goes. -/
theorem backwardOk_eq_none_iff :
    backwardOk old new = none ↔
      old.requiredNames ⊆ new.fieldNames ∧ new.requiredNames ⊆ old.fieldNames := by
  rw [← Finset.sdiff_eq_empty_iff_subset,
    ← Finset.sdiff_eq_empty_iff_subset (s := new.requiredNames), ← addedRequired_eq old new,
    ← Finset.not_nonempty_iff_eq_empty, ← Finset.not_nonempty_iff_eq_empty, backwardOk]
  split
  · next hdropped => exact iff_of_false nofun fun h => h.1 hdropped
  · next hdropped =>
    split
    · next hadded => exact iff_of_false nofun fun h => h.2 hadded
    · next hadded => exact iff_of_true rfl ⟨hdropped, hadded⟩

/-- The record that has just the required fields is the hardest to read. -/
theorem reads_iff : new.Reads old ↔ new.requiredNames ⊆ old.requiredNames :=
  ⟨fun h => h _ ⟨Finset.Subset.refl _, old.requiredNames_subset⟩,
    fun h _ hrecord => h.trans hrecord.1⟩

/-- A schema with nothing wrong reads the old records, unless it promotes a field. -/
theorem reads_iff_not_promotes (h : backwardOk old new = none) :
    new.Reads old ↔ ¬ Promotes old new := by
  obtain ⟨-, hadded⟩ := backwardOk_eq_none_iff.mp h
  rw [reads_iff]
  constructor
  · rintro hsub ⟨name, hname, -, hoptional⟩
    exact hoptional (hsub hname)
  · intro hnot name hname
    by_contra hoptional
    exact hnot ⟨name, hname, hadded hname, hoptional⟩

end Schema

/-! ## The registry -/

/-- What a topic asks of the schemas that are registered for it. -/
inductive CompatibilityMode where
  | backward
  | forward
  | full
  | none
  deriving DecidableEq

/-- The word for a mode. -/
def CompatibilityMode.text : CompatibilityMode → String
  | .backward => "backward"
  | .forward => "forward"
  | .full => "full"
  | .none => "none"

/-- `MODES`. -/
def CompatibilityMode.modes : List CompatibilityMode := [.backward, .forward, .full, .none]

/-- The modes and the schemas of all topics. -/
structure SchemaRegistry where
  modes : Dict String CompatibilityMode := ∅
  schemas : Dict String (List Schema) := ∅

namespace SchemaRegistry

/-- `set_mode`. -/
def setMode (registry : SchemaRegistry) (topic mode : String) :
    Except RelayError Unit × SchemaRegistry :=
  match CompatibilityMode.modes.find? fun known => known.text = mode with
  | none => (.error (.invalid s!"unknown compatibility mode {mode}"), registry)
  | some known => (.ok (), { registry with modes := registry.modes.set topic known })

/-- The mode of a topic. -/
def mode (registry : SchemaRegistry) (topic : String) : CompatibilityMode :=
  registry.modes.getD topic .backward

/-- The schemas of a topic that were accepted, oldest first. -/
def history (registry : SchemaRegistry) (topic : String) : List Schema :=
  registry.schemas.getD topic []

/-- What a mode finds wrong with a schema after the latest one. -/
def problem (mode : CompatibilityMode) (latest schema : Schema) : Option String :=
  let problem := if mode = .backward ∨ mode = .full then latest.backwardOk schema else none
  if problem = none ∧ (mode = .forward ∨ mode = .full) then latest.forwardOk schema else problem

/-- `register`. -/
def register (registry : SchemaRegistry) (topic : String) (schema : Schema) :
    Except RelayError String × SchemaRegistry :=
  let schemas := registry.schemas.setDefault topic []
  let history := schemas.getD topic []
  match history.getLast?.bind fun latest => problem (registry.mode topic) latest schema with
  | some problem =>
    (.error (.invalid (s!"{topic} rejects version {schema.version}: " ++ problem)),
      { registry with schemas })
  | none =>
    (.ok (s!"{topic} accepted version {schema.version} under "
        ++ s!"{(registry.mode topic).text} compatibility"),
      { registry with schemas := schemas.set topic (history ++ [schema]) })

/-- Every mode but the one that checks nothing accepts the same schemas. -/
theorem problem_eq_none_iff {mode : CompatibilityMode} (hmode : mode ≠ .none)
    (latest schema : Schema) :
    problem mode latest schema = none ↔ latest.backwardOk schema = none := by
  have hforward : latest.forwardOk schema = none ↔ latest.backwardOk schema = none := by
    rw [Schema.forwardOk, Schema.backwardOk_eq_none_iff, Schema.backwardOk_eq_none_iff, and_comm]
  cases mode with
  | backward => simp [problem]
  | forward => simpa [problem] using hforward
  | full =>
    by_cases hbackward : latest.backwardOk schema = none
    · simp [problem, hbackward, hforward]
    · simp [problem, hbackward]
  | none => exact absurd rfl hmode

end SchemaRegistry

/-! ## Runs -/

/-- A call to a registry. -/
inductive SchemaCall where
  | setMode (topic mode : String)
  | register (topic : String) (schema : Schema)
  deriving DecidableEq

/-- What a call answers. -/
inductive SchemaAnswer where
  | set (answer : Except RelayError Unit)
  | registered (answer : Except RelayError String)

/-- The registry as a component. -/
def schemaRegistry : Machine SchemaRegistry SchemaCall SchemaAnswer where
  step registry
    | .setMode topic mode => (registry.setMode topic mode).map .set id
    | .register topic schema => (registry.register topic schema).map .registered id

namespace SchemaRegistry

/-- What is registered for the topic is registered under backward or full compatibility. -/
def UnderBackward (topic : String) (registry : SchemaRegistry) (call : SchemaCall) : Prop :=
  ∀ schema, call = .register topic schema →
    registry.mode topic = .backward ∨ registry.mode topic = .full

/-- What is registered for the topic makes no field required that was optional in the latest
schema, or else the check finds something wrong with it. -/
def KeepsOptional (topic : String) (registry : SchemaRegistry) (call : SchemaCall) : Prop :=
  ∀ schema latest, call = .register topic schema →
    (registry.history topic).getLast? = some latest → latest.backwardOk schema = none →
    ¬ latest.Promotes schema

/-- What a call does to the history of a topic: it leaves it alone, and then it registers nothing
for the topic that would be accepted, or it adds the schema it registers. -/
theorem history_step (registry : SchemaRegistry) (topic : String) (call : SchemaCall) :
    ((schemaRegistry.step registry call).2.history topic = registry.history topic ∧
        ∀ schema, call = .register topic schema →
          ∃ latest, (registry.history topic).getLast? = some latest ∧
            problem (registry.mode topic) latest schema ≠ none) ∨
      ∃ schema, call = .register topic schema ∧
        (schemaRegistry.step registry call).2.history topic =
          registry.history topic ++ [schema] ∧
        ∀ latest, (registry.history topic).getLast? = some latest →
          problem (registry.mode topic) latest schema = none := by
  cases call with
  | setMode topic' mode =>
    refine .inl ⟨?_, fun schema heq => (by cases heq)⟩
    have hstep : (schemaRegistry.step registry (.setMode topic' mode)).2 =
        (registry.setMode topic' mode).2 := rfl
    rw [hstep, setMode]
    split <;> rfl
  | register topic' schema =>
    have hstep : (schemaRegistry.step registry (.register topic' schema)).2 =
        (registry.register topic' schema).2 := rfl
    have hhistory (k : String) :
        (registry.schemas.setDefault topic' []).getD k [] = registry.history k :=
      Dict.getD_setDefault _ _ _ _
    rw [hstep, register]
    simp only [hhistory]
    split
    · next report hreport =>
      refine .inl ⟨hhistory topic, fun schema' hcall => ?_⟩
      obtain ⟨rfl, rfl⟩ := SchemaCall.register.inj hcall
      obtain ⟨latest, hlatest, hproblem⟩ := Option.bind_eq_some_iff.mp hreport
      exact ⟨latest, hlatest, by rw [hproblem]; exact Option.some_ne_none _⟩
    · next hnone =>
      by_cases htopic : topic = topic'
      · subst htopic
        refine .inr ⟨schema, rfl, (Dict.getD_set _ _ _ _ _).trans (if_pos rfl), ?_⟩
        intro latest hlatest
        rwa [hlatest] at hnone
      · refine .inl ⟨?_, fun schema' hcall => absurd (SchemaCall.register.inj hcall).1.symm htopic⟩
        exact ((Dict.getD_set _ _ _ _ _).trans (if_neg htopic)).trans (hhistory topic)

variable {topic : String} {registry : SchemaRegistry} {call : SchemaCall}

/-- **One call.** A call under backward or full compatibility leaves a readable history readable
exactly when it keeps what is optional. -/
theorem keepsOptional_iff_isChain (hmode : UnderBackward topic registry call)
    (hchain : (registry.history topic).IsChain fun old new => new.Reads old) :
    KeepsOptional topic registry call ↔
      ((schemaRegistry.step registry call).2.history topic).IsChain
        fun old new => new.Reads old := by
  have hnone (schema latest : Schema) (hcall : call = .register topic schema) :
      problem (registry.mode topic) latest schema = none ↔ latest.backwardOk schema = none := by
    refine problem_eq_none_iff ?_ latest schema
    rcases hmode schema hcall with hmode | hmode <;> rw [hmode] <;> exact nofun
  rcases registry.history_step topic call with ⟨hsame, hrefused⟩ | ⟨schema, rfl, hnext, haccepted⟩
  · rw [hsame]
    refine iff_of_true (fun schema latest hcall hlatest hok => ?_) hchain
    obtain ⟨latest', hlatest', hproblem⟩ := hrefused schema hcall
    obtain rfl := Option.some.inj (hlatest.symm.trans hlatest')
    exact absurd ((hnone schema latest hcall).mpr hok) hproblem
  · rw [hnext, List.isChain_append]
    have hok (latest : Schema) (hlatest : (registry.history topic).getLast? = some latest) :
        latest.backwardOk schema = none :=
      (hnone schema latest rfl).mp (haccepted latest hlatest)
    constructor
    · refine fun hkeeps => ⟨hchain, List.isChain_singleton schema, ?_⟩
      rintro latest hlatest _ ⟨⟩
      exact (Schema.reads_iff_not_promotes (hok latest hlatest)).mpr
        (hkeeps schema latest rfl hlatest (hok latest hlatest))
    · rintro ⟨-, -, hreads⟩ schema' latest hcall hlatest hok'
      obtain rfl := (SchemaCall.register.inj hcall).2
      exact (Schema.reads_iff_not_promotes hok').mp (hreads latest hlatest schema rfl)

/-- **When old records can be read.** In every run of a new registry in which a topic's schemas are
registered under backward or full compatibility, each schema of the topic reads the records of the
one before it if and only if no registration makes a field required that stays and was optional. -/
theorem keepsOptional_iff_reads (topic : String) (calls : List SchemaCall)
    (hmode : schemaRegistry.Guarded (UnderBackward topic) {} calls) :
    schemaRegistry.Guarded (KeepsOptional topic) {} calls ↔
      ((schemaRegistry.final {} calls).history topic).IsChain fun old new => new.Reads old := by
  induction calls using List.reverseRecOn with
  | nil => exact iff_of_true trivial List.IsChain.nil
  | append_singleton calls call ih =>
    rw [Machine.guarded_append] at hmode ⊢
    rw [Machine.final_append_singleton]
    have hstep (hchain : ((schemaRegistry.final {} calls).history topic).IsChain
        fun old new => new.Reads old) :=
      keepsOptional_iff_isChain hmode.2.1 hchain
    constructor
    · rintro ⟨hkeeps, hkeep, -⟩
      exact (hstep ((ih hmode.1).mp hkeeps)).mp hkeep
    · intro hchain
      have hpast : ((schemaRegistry.final {} calls).history topic).IsChain
          fun old new => new.Reads old := by
        rcases (schemaRegistry.final {} calls).history_step topic call with
          ⟨hsame, -⟩ | ⟨schema, -, hnext, -⟩
        · exact hsame ▸ hchain
        · exact (List.isChain_append.mp (hnext ▸ hchain)).1
      exact ⟨(ih hmode.1).mpr hpast, (hstep hpast).mpr hchain, trivial⟩

/-- A topic whose schema takes on an optional field. -/
theorem keepsOptional_iff_reads_optional :
    schemaRegistry.Guarded (KeepsOptional "users") {}
        [.register "users" ⟨1, [⟨"id", true⟩]⟩,
          .register "users" ⟨2, [⟨"id", true⟩, ⟨"email", false⟩]⟩] ↔
      ((schemaRegistry.final {}
        [.register "users" ⟨1, [⟨"id", true⟩]⟩,
          .register "users" ⟨2, [⟨"id", true⟩, ⟨"email", false⟩]⟩]).history "users").IsChain
        fun old new => new.Reads old :=
  keepsOptional_iff_reads "users" _
    ⟨fun _ _ => .inl rfl, fun _ _ => .inl rfl, trivial⟩

/-- A field that was optional becomes required. The schema is accepted, and cannot read the old
records that lack the field. -/
theorem register_accepts_unreadable :
    schemaRegistry.Guarded (UnderBackward "users") {}
        [.register "users" ⟨1, [⟨"email", false⟩]⟩,
          .register "users" ⟨2, [⟨"email", true⟩]⟩] ∧
      (schemaRegistry.final {}
        [.register "users" ⟨1, [⟨"email", false⟩]⟩,
          .register "users" ⟨2, [⟨"email", true⟩]⟩]).history "users" =
        [⟨1, [⟨"email", false⟩]⟩, ⟨2, [⟨"email", true⟩]⟩] ∧
      Schema.Valid ⟨1, [⟨"email", false⟩]⟩ ∅ ∧
      ¬ Schema.Reads ⟨2, [⟨"email", true⟩]⟩ ⟨1, [⟨"email", false⟩]⟩ := by
  refine ⟨⟨fun _ _ => .inl rfl, fun _ _ => .inl rfl, trivial⟩, rfl, ⟨by decide, by decide⟩, ?_⟩
  rw [Schema.reads_iff]
  decide

end SchemaRegistry

end Relay
