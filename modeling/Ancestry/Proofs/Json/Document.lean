import Ancestry.Proofs.Json.Token

/-!
# How JSON documents are written

The tokens of a document are determined by it, and the reader gets it back from them: wherever a
value may stand, the tokens of a value take the reader past it and leave the frames around it as
they were. With the ways to write tokens this makes every text of a document readable, among them
the one that is written out for an object.
-/

namespace Ancestry.Json

mutual

def tokens : Json → List Token
  | .null => [.null]
  | .bool b => [.bool b]
  | .number n => [.number n]
  | .text t => [.text t]
  | .array [] => [.openArray, .closeArray]
  | .array (v :: vs) => .openArray :: tokens v ++ itemTokens vs ++ [.closeArray]
  | .object [] => [.openObject, .closeObject]
  | .object ((name, v) :: ms) =>
    .openObject :: .text name :: .colon :: tokens v ++ memberTokens ms ++ [.closeObject]

def itemTokens : List Json → List Token
  | [] => []
  | v :: vs => .comma :: tokens v ++ itemTokens vs

def memberTokens : List (Text × Json) → List Token
  | [] => []
  | (name, v) :: ms => .comma :: .text name :: .colon :: tokens v ++ memberTokens ms

end

/-- The text is one of the ways to write the document. -/
def WrittenAs (v : Json) (text : String) : Prop := Token.Spells v.tokens text.toList

namespace State

theorem foldlM_append_of_some {α β : Type} {f : β → α → Option β} {as bs : List α} {b c : β}
    (h : as.foldlM f b = some c) : (as ++ bs).foldlM f b = bs.foldlM f c := by
  rw [List.foldlM_append, h]
  rfl

/-- A value begins in an empty array as it does elsewhere. -/
theorem foldlM_firstItem (v : Json) (stack : List Frame) :
    v.tokens.foldlM step (.firstItem stack) = v.tokens.foldlM step (.value (.array [] :: stack)) := by
  have hfirst : ∃ t ts, v.tokens = t :: ts ∧
      step (.firstItem stack) t = step (.value (.array [] :: stack)) t := by
    match v with
    | .null => exact ⟨_, _, rfl, rfl⟩
    | .bool _ => exact ⟨_, _, rfl, rfl⟩
    | .number _ => exact ⟨_, _, rfl, rfl⟩
    | .text _ => exact ⟨_, _, rfl, rfl⟩
    | .array [] => exact ⟨_, _, rfl, rfl⟩
    | .array (_ :: _) => exact ⟨_, _, rfl, rfl⟩
    | .object [] => exact ⟨_, _, rfl, rfl⟩
    | .object (_ :: _) => exact ⟨_, _, rfl, rfl⟩
  obtain ⟨t, ts, htokens, hstep⟩ := hfirst
  rw [htokens, List.foldlM_cons, List.foldlM_cons, hstep]

mutual

/-- The tokens of a value complete it. -/
theorem foldlM_tokens (v : Json) (stack : List Frame) :
    v.tokens.foldlM step (.value stack) = some (put v stack) := by
  match v with
  | .null => rfl
  | .bool b => rfl
  | .number n => rfl
  | .text t => rfl
  | .array [] => rfl
  | .array (v :: vs) =>
    have hvalue := foldlM_tokens v (.array [] :: stack)
    rw [← foldlM_firstItem] at hvalue
    have hfirst : (Token.openArray :: tokens v).foldlM step (.value stack) =
        some (.afterItem [v] stack) := hvalue
    have hitems := foldlM_itemTokens vs [v] stack
    rw [← List.reverse_cons] at hitems
    rw [tokens, List.append_assoc, foldlM_append_of_some hfirst, foldlM_append_of_some hitems]
    exact congrArg (fun items => some (put (.array items) stack)) (List.reverse_reverse (v :: vs))
  | .object [] => rfl
  | .object ((name, v) :: ms) =>
    have hvalue := foldlM_tokens v (.object [] name :: stack)
    have hfirst : (Token.openObject :: .text name :: .colon :: tokens v).foldlM step
        (.value stack) = some (.afterMember [(name, v)] stack) := hvalue
    have hmembers := foldlM_memberTokens ms [(name, v)] stack
    rw [← List.reverse_cons] at hmembers
    rw [tokens, List.append_assoc, foldlM_append_of_some hfirst, foldlM_append_of_some hmembers]
    exact congrArg (fun members => some (put (.object members) stack))
      (List.reverse_reverse ((name, v) :: ms))

theorem foldlM_itemTokens (vs items : List Json) (stack : List Frame) :
    (itemTokens vs).foldlM step (.afterItem items stack) =
      some (.afterItem (vs.reverse ++ items) stack) := by
  match vs with
  | [] => rfl
  | v :: vs =>
    have hvalue := foldlM_tokens v (.array items :: stack)
    have hcomma : (Token.comma :: tokens v).foldlM step (.afterItem items stack) =
        some (.afterItem (v :: items) stack) := hvalue
    rw [itemTokens, foldlM_append_of_some hcomma, foldlM_itemTokens vs, List.reverse_cons,
      List.append_assoc, List.singleton_append]

theorem foldlM_memberTokens (ms members : List (Text × Json)) (stack : List Frame) :
    (memberTokens ms).foldlM step (.afterMember members stack) =
      some (.afterMember (ms.reverse ++ members) stack) := by
  match ms with
  | [] => rfl
  | (name, v) :: ms =>
    have hvalue := foldlM_tokens v (.object members name :: stack)
    have hcomma : (Token.comma :: .text name :: .colon :: tokens v).foldlM step
        (.afterMember members stack) = some (.afterMember ((name, v) :: members) stack) := hvalue
    rw [memberTokens, foldlM_append_of_some hcomma, foldlM_memberTokens ms, List.reverse_cons,
      List.append_assoc, List.singleton_append]

end

end State

/-- However a document is written, it is read as itself. -/
theorem parse_of_writtenAs {v : Json} {text : String} (h : v.WrittenAs text) :
    parse text = some v := by
  rw [parse, Token.lex_of_spells h]
  simp only [Option.bind_eq_bind, Option.bind_some, State.foldlM_tokens]
  rfl

theorem intercalate_cons {α : Type} (separator first : List α) (rest : List (List α)) :
    separator.intercalate (first :: rest) = first ++ rest.flatMap (separator ++ ·) := by
  induction rest generalizing first with
  | nil => simp
  | cons x xs ih => rw [List.intercalate_cons_cons, ih, List.flatMap_cons, List.append_assoc,
      List.append_assoc]

def memberLine (name : String) (value : List Char) : List Char :=
  [' ', ' '] ++ Text.write name ++ [':', ' '] ++ value

theorem spells_memberLine (name : String) {t : Token} {ts : List Token} {cs rest : List Char}
    (ht : t.Written cs) (hrest : Token.Spells ts rest) (hends : Token.EndsNumber rest) :
    Token.Spells (.text (Text.ofString name) :: .colon :: t :: ts) (memberLine name cs ++ rest) := by
  have hvalue : Token.Spells (t :: ts) ([' '] ++ cs ++ rest) :=
    .cons (by simp [Token.isBlank]) ht hrest fun _ _ => hends
  have hcolon : Token.Spells (.colon :: t :: ts) ([] ++ [':'] ++ ([' '] ++ cs ++ rest)) :=
    .cons (by simp) .colon hvalue (by simp)
  have hname : Token.Spells (.text (Text.ofString name) :: .colon :: t :: ts) ([' ', ' '] ++
      Text.write name ++ ([] ++ [':'] ++ ([' '] ++ cs ++ rest))) :=
    .cons (by simp [Token.isBlank]) (.text (Text.written_ofString name)) hcolon (by simp)
  simpa only [memberLine, List.append_assoc, List.cons_append, List.nil_append] using hname

section WriteObject

variable {α : Type} (name : α → String) {value : α → Json} {chars : α → List Char}

theorem spells_memberLines (as : List α)
    (h : ∀ a ∈ as, ∃ t : Token, (value a).tokens = [t] ∧ t.Written (chars a)) :
    let rest := as.flatMap (fun a => [',', '\n'] ++ memberLine (name a) (chars a)) ++
      ['\n', '\x7d']
    Token.Spells (memberTokens (as.map fun a => (Text.ofString (name a), value a)) ++
      [.closeObject]) rest ∧ Token.EndsNumber rest := by
  have hblank : ∀ c ∈ ['\n'], Token.isBlank c := by simp [Token.isBlank]
  induction as with
  | nil =>
    constructor
    · have hend : Token.Spells [.closeObject] ([] ++ ['\x7d'] ++ []) :=
        .cons (by simp) .closeObject (.nil (by simp)) (by simp)
      exact hend.append hblank
    · rintro c ⟨⟩
      decide
  | cons a as ih =>
    obtain ⟨t, ht, hwritten⟩ := h a List.mem_cons_self
    obtain ⟨hspells, hends⟩ := ih fun x hx => h x (List.mem_cons_of_mem a hx)
    have hmember := spells_memberLine (name a) hwritten hspells hends
    constructor
    · have hcomma : Token.Spells (.comma :: _) ([] ++ [','] ++ (['\n'] ++ _)) :=
        .cons (by simp) .comma (hmember.append hblank) (by simp)
      rw [List.map_cons, memberTokens, ht, List.flatMap_cons, List.append_assoc, List.append_assoc]
      exact hcomma
    · rintro c ⟨⟩
      decide

/-- An object that is written out is one of the ways to write the object. -/
theorem writtenAs_writeObject (as : List α)
    (h : ∀ a ∈ as, ∃ t : Token, (value a).tokens = [t] ∧ t.Written (chars a)) :
    WrittenAs (.object (as.map fun a => (Text.ofString (name a), value a)))
      (String.ofList (writeObject (as.map fun a => (name a, chars a)))) := by
  have hblank : ∀ c ∈ ['\n'], Token.isBlank c := by simp [Token.isBlank]
  have hlines : writeObject (as.map fun a => (name a, chars a)) = ['\x7b', '\n'] ++
      [',', '\n'].intercalate (as.map fun a => memberLine (name a) (chars a)) ++ ['\n', '\x7d'] := by
    rw [writeObject, List.map_map]
    rfl
  have hopen {ts : List Token} {cs : List Char} (hrest : Token.Spells ts cs) :
      Token.Spells (.openObject :: ts) (['\x7b', '\n'] ++ cs) := by
    have hfirst : Token.Spells (.openObject :: ts) ([] ++ ['\x7b'] ++ (['\n'] ++ cs)) :=
      .cons (by simp) .openObject (hrest.append hblank) (by simp)
    exact hfirst
  rw [WrittenAs, String.toList_ofList, hlines]
  cases as with
  | nil => exact hopen (spells_memberLines name [] h).1
  | cons a as =>
    obtain ⟨t, ht, hwritten⟩ := h a List.mem_cons_self
    obtain ⟨hspells, hends⟩ := spells_memberLines name as fun x hx =>
      h x (List.mem_cons_of_mem a hx)
    have hobject := hopen (spells_memberLine (name a) hwritten hspells hends)
    rw [List.map_cons, List.map_cons, tokens, ht, intercalate_cons, List.flatMap_map]
    simpa only [List.append_assoc, List.cons_append, List.nil_append] using hobject

end WriteObject

end Ancestry.Json
