import Ancestry.Settings
import Ancestry.Proofs.Json.Document

/-!
# Settings read from JSON

A document that gives some of the settings, each once and in any order, is read as the settings that
agree with it where it speaks and with the defaults where it is silent. It does not matter how the
document is laid out or which escapes its texts use. What is written for settings is such a document
and gives them all.
-/

namespace Ancestry.Settings

inductive Field
  | path
  | mapped
  | limit
deriving DecidableEq

namespace Field

def name : Field → String
  | .path => pathName
  | .mapped => mappedName
  | .limit => limitName

def value (c : Settings) : Field → Json
  | .path => .text (Json.Text.ofString c.path)
  | .mapped => .bool c.mapped
  | .limit => .number (some c.limit)

def write (c : Settings) : Field → List Char
  | .path => Json.Text.write c.path
  | .mapped => Json.writeBool c.mapped
  | .limit => Json.writeNat c.limit

/-- The values that mean what the field is in the settings. -/
inductive Gives (c : Settings) : Field → Json → Prop
  | path {t : Json.Text} : t.toString? = some c.path → Gives c .path (.text t)
  | mapped : Gives c .mapped (.bool c.mapped)
  | limit : Gives c .limit (.number (some c.limit))

end Field

/-- The members are the fields, one after the other, with what they are in the settings. -/
inductive Lists (c : Settings) : List Field → List (Json.Text × Json) → Prop
  | nil : Lists c [] []
  | cons {field : Field} {fields : List Field} {name : Json.Text} {v : Json}
      {members : List (Json.Text × Json)} : name.toString? = some field.name → field.Gives c v →
      Lists c fields members → Lists c (field :: fields) ((name, v) :: members)

/-- The text is an object that gives these fields of the settings and nothing else. -/
def Describes (c : Settings) (fields : List Field) (text : String) : Prop :=
  ∃ members, c.Lists fields members ∧ Json.WrittenAs (.object members) text

def toJsonOf (c : Settings) (fields : List Field) : String :=
  String.ofList (Json.writeObject (fields.map fun field => (field.name, field.write c)))

/-- The settings where the fields are as in `c` and the others have their defaults. -/
def keep (c : Settings) (fields : List Field) : Settings where
  path := if .path ∈ fields then c.path else default.path
  mapped := if .mapped ∈ fields then c.mapped else default.mapped
  limit := if .limit ∈ fields then c.limit else default.limit

def given (c : Settings) (fields : List Field) : Given where
  path := if .path ∈ fields then some c.path else none
  mapped := if .mapped ∈ fields then some c.mapped else none
  limit := if .limit ∈ fields then some c.limit else none

variable {c : Settings} {field : Field} {fields : List Field} {text : String}

theorem complete_given (c : Settings) (fields : List Field) :
    (c.given fields).complete = c.keep fields := by
  have hgetD {α : Type} (p : Prop) [Decidable p] (a b : α) :
      (if p then some a else none).getD b = if p then a else b := by
    split <;> rfl
  simp only [Given.complete, given, keep, hgetD]

example : Given.empty.complete = ⟨"objects/info/commit-graph", true, 0x100000000⟩ := by
  decide +kernel

theorem given_congr {others : List Field} (h : ∀ f, f ∈ fields ↔ f ∈ others) :
    c.given fields = c.given others := by
  simp only [given, h]

section Read

variable (hlimit : c.limit < UInt64.size)
include hlimit

theorem addMember_given {name : Json.Text} {v : Json} (hnew : field ∉ fields)
    (hname : name.toString? = some field.name) (hv : field.Gives c v) :
    (c.given fields).addMember (name, v) = some (c.given (field :: fields)) := by
  have hnames : mappedName ≠ pathName ∧ limitName ≠ pathName ∧ limitName ≠ mappedName := by decide
  cases hv with
  | path ht =>
    have hnone : (c.given fields).path = none := if_neg hnew
    simp only [Given.addMember, hname, Field.name, Given.readPath, ht, hnone]
    simp [given]
  | mapped =>
    have hnone : (c.given fields).mapped = none := if_neg hnew
    simp only [Given.addMember, hname, Field.name, Given.readMapped, hnone]
    simp [given, hnames]
  | limit =>
    have hnone : (c.given fields).limit = none := if_neg hnew
    simp only [Given.addMember, hname, Field.name, Given.readLimit, hnone, hlimit]
    simp [given, hnames]

theorem foldlM_addMember {members : List (Json.Text × Json)} {before : List Field}
    (h : c.Lists fields members) (distinct : fields.Nodup) (hnew : ∀ f ∈ fields, f ∉ before) :
    members.foldlM Given.addMember (c.given before) =
      some (c.given (fields.reverse ++ before)) := by
  induction h generalizing before with
  | nil => rfl
  | @cons field fields name v members hname hv _ ih =>
    obtain ⟨hfield, hfields⟩ := List.nodup_cons.mp distinct
    obtain ⟨hnow, hlater⟩ := List.forall_mem_cons.mp hnew
    have hrest : ∀ f ∈ fields, f ∉ field :: before := by
      intro f hf hmem
      rcases List.mem_cons.mp hmem with rfl | hmem
      · exact hfield hf
      · exact hlater f hf hmem
    rw [List.foldlM_cons, addMember_given hlimit hnow hname hv]
    rw [List.reverse_cons, List.append_assoc, List.singleton_append]
    exact ih hfields hrest

/-- A document is read as what it describes. -/
theorem ofText_of_describes (distinct : fields.Nodup) (h : c.Describes fields text) :
    ofText text = some (c.keep fields) := by
  obtain ⟨members, hlists, hwritten⟩ := h
  have hempty : c.given [] = Given.empty := rfl
  have hgiven : Given.ofJson (.object members) = some (c.given fields) := by
    rw [Given.ofJson, ← hempty, foldlM_addMember hlimit hlists distinct (by simp)]
    exact congrArg some (given_congr (by simp))
  simp only [ofText, Json.parse_of_writtenAs hwritten, hgiven, Option.bind_eq_bind,
    Option.bind_some, complete_given]

end Read

theorem toJson_eq (c : Settings) : c.toJson = c.toJsonOf [.path, .mapped, .limit] := rfl

theorem keep_all (c : Settings) : c.keep [.path, .mapped, .limit] = c := rfl

theorem describes_toJsonOf (c : Settings) (fields : List Field) :
    c.Describes fields (c.toJsonOf fields) := by
  refine ⟨fields.map fun field => (Json.Text.ofString field.name, field.value c), ?_, ?_⟩
  · induction fields with
    | nil => exact .nil
    | cons field fields ih =>
      refine .cons (Json.Text.toString?_ofString field.name) ?_ ih
      cases field with
      | path => exact .path (Json.Text.toString?_ofString c.path)
      | mapped => exact .mapped
      | limit => exact .limit
  · apply Json.writtenAs_writeObject
    intro field _
    cases field with
    | path => exact ⟨_, rfl, .text (Json.Text.written_ofString c.path)⟩
    | mapped => exact ⟨_, rfl, .bool c.mapped⟩
    | limit => exact ⟨_, rfl, .natural c.limit⟩

/-- Settings are read back from what is written for them. Of a document with some of the fields, in
any order, these are read, and the others have their defaults. -/
theorem ofText_toJson (c : Settings) (hlimit : c.limit < UInt64.size) :
    ofText c.toJson = some c ∧
      ∀ fields : List Field, fields.Nodup →
        ofText (c.toJsonOf fields) = some (c.keep fields) ∧
          ∀ text, c.Describes fields text → ofText text = some (c.keep fields) := by
  have hwritten {fields : List Field} (distinct : fields.Nodup) :
      ofText (c.toJsonOf fields) = some (c.keep fields) :=
    ofText_of_describes hlimit distinct (describes_toJsonOf c fields)
  constructor
  · have hall : [Field.path, .mapped, .limit].Nodup := by decide
    rw [toJson_eq, hwritten hall, keep_all]
  · intro fields distinct
    exact ⟨hwritten distinct, fun text => ofText_of_describes hlimit distinct⟩

/-- A path with a quote, a backslash, control characters and a character of two code units, and the
greatest limit. -/
def sample : Settings :=
  ⟨"a\"\\\n\x01/😀", false, UInt64.size - 1⟩

/-- The limit and the flag, with blanks and with a letter of a name written by its code unit. -/
def sampleText : String :=
  "\x7b\"max_file_size\": 18446744073709551615 ,\n\"\\u0075se_mmap\":false\x7d"

theorem describes_sampleText : sample.Describes [.limit, .mapped] sampleText := by
  have hlimit : Json.Text.Written (Json.Text.ofString limitName) "max_file_size\"".toList :=
    Json.Text.written_ofString limitName
  have hmapped : Json.Text.Written (.unit 0x75 :: Json.Text.ofString "se_mmap")
      "\\u0075se_mmap\"".toList :=
    .cons (.unit rfl) (Json.Text.written_ofString "se_mmap")
  refine ⟨[(Json.Text.ofString limitName, .number (some sample.limit)),
    (.unit 0x75 :: Json.Text.ofString "se_mmap", .bool sample.mapped)], ?_, ?_⟩
  · exact .cons rfl .limit (.cons rfl .mapped .nil)
  · have hblank : ∀ c ∈ [' '], Json.Token.isBlank c := by simp [Json.Token.isBlank]
    have hend : Json.Token.Spells [.closeObject] ([] ++ ['\x7d'] ++ []) :=
      .cons (by simp) .closeObject (.nil (by simp)) (by simp)
    have hflag : Json.Token.Spells (.colon :: _) ([] ++ [':'] ++ ([] ++ _ ++ _)) :=
      .cons (by simp) .colon (.cons (by simp) (.bool sample.mapped) hend (by simp)) (by simp)
    have hsecond : Json.Token.Spells (.comma :: _) ([' '] ++ [','] ++ (['\n'] ++ _ ++ _)) :=
      .cons hblank .comma (.cons (by simp [Json.Token.isBlank]) (.text hmapped) hflag (by simp))
        (by simp)
    have hends (cs : List Char) : Json.Token.EndsNumber (' ' :: cs) := by
      rintro c ⟨⟩
      decide
    have hnumber : Json.Token.Spells (.colon :: _) ([] ++ [':'] ++ ([' '] ++ _ ++ _)) :=
      .cons (by simp) .colon
        (.cons hblank (.natural sample.limit) hsecond fun _ _ => hends _) (by simp)
    have hfirst : Json.Token.Spells (.text _ :: _) ([] ++ _ ++ _) :=
      .cons (by simp) (.text hlimit) hnumber (by simp)
    have hobject : Json.Token.Spells (.openObject :: _) ([] ++ ['\x7b'] ++ _) :=
      .cons (by simp) .openObject hfirst (by simp)
    exact hobject

theorem ofText_sample :
    (sample.limit < UInt64.size ∧ [Field.limit, .mapped].Nodup ∧
      sample.Describes [.limit, .mapped] sampleText) ∧
    ofText sample.toJson = some sample ∧
    ofText (sample.toJsonOf [.limit, .mapped]) =
      some ⟨"objects/info/commit-graph", false, UInt64.size - 1⟩ ∧
    ofText sampleText = some ⟨"objects/info/commit-graph", false, UInt64.size - 1⟩ := by
  have hlimit : sample.limit < UInt64.size := by decide
  have distinct : [Field.limit, .mapped].Nodup := by decide
  obtain ⟨hall, hsome⟩ := ofText_toJson sample hlimit
  obtain ⟨hwritten, hdescribed⟩ := hsome [.limit, .mapped] distinct
  have hkept : sample.keep [.limit, .mapped] =
      ⟨"objects/info/commit-graph", false, UInt64.size - 1⟩ := by decide +kernel
  rw [hkept] at hwritten hdescribed
  exact ⟨⟨hlimit, distinct, describes_sampleText⟩, hall, hwritten,
    hdescribed sampleText describes_sampleText⟩

end Ancestry.Settings
