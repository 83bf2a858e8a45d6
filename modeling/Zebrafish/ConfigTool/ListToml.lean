import Zebrafish.Toml.Grammar
import Zebrafish.ConfigTool.Variables

/-!
# Zebrafish.ConfigTool.ListToml

`zebrafish-config list <section>`, in the default format (`list.rs`).

It prints a header and, on the next line, the section as a value.  A value does
not stand on a line of its own in TOML, so what is printed is never a document
(`list_section_never`).
-/

namespace Zebrafish.ConfigTool

open Toml Toml.Grammar

/-- What is printed for a section; `none` if there is no such section. -/
def listToml (D : Display) (cfg : Config) (name : String) : Option String :=
  match walkSegments [.field name] cfg.view with
  | some v => some ("[" ++ name ++ "]\n" ++ D.toml v ++ "\n")
  | none => none

/-- Tables and arrays are printed as inline values: a table in braces, an array
in brackets, with its first item behind a gap. -/
structure Inline (D : Display) : Prop where
  table : ∀ entries, ∃ rest, (D.toml (.table entries)).toList = '{' :: rest
  nil : ∃ gap rest, Gap gap ∧ (D.toml (.array [])).toList = '[' :: (gap ++ ']' :: rest)
  cons : ∀ v items, ∃ gap rest, Gap gap ∧
    (D.toml (.array (v :: items))).toList = '[' :: (gap ++ ((D.toml v).toList ++ rest))

mutual

/-- Inline values, short of escapes. -/
def inlineText (float : UInt64 → String) : Value → String
  | .string s => "\"" ++ s ++ "\""
  | .integer i => toString i
  | .float bits => float bits
  | .boolean b => boolText b
  | .datetime text => text
  | .array items => "[" ++ inlineItems float items ++ "]"
  | .table entries => "\x7b" ++ inlineEntries float entries ++ "\x7d"

def inlineItems (float : UInt64 → String) : List Value → String
  | [] => ""
  | v :: items => inlineText float v ++ (if items = [] then "" else ", ") ++ inlineItems float items

def inlineEntries (float : UInt64 → String) : Entries → String
  | [] => ""
  | (k, v) :: entries => " " ++ k ++ " = " ++ inlineText float v ++
      (if entries = [] then " " else ",") ++ inlineEntries float entries

end

def inlineDisplay (float : UInt64 → String) : Display := ⟨float, inlineText float⟩

/-- The display writes a value in one line. -/
theorem toml_inlineDisplay (float : UInt64 → String) (v : Value) :
    (inlineDisplay float).toml v = inlineText float v := by
  cases v <;> simp [Display.toml, inlineDisplay, inlineText]

/-- It writes tables inline. -/
theorem inline_inlineDisplay (float : UInt64 → String) : Inline (inlineDisplay float) where
  table entries := by simp [toml_inlineDisplay, inlineText]
  nil := ⟨[], [], .nil, by simp [toml_inlineDisplay, inlineText, inlineItems]⟩
  cons v items := by
    refine ⟨[], ((if items = [] then "" else ", ") ++ inlineItems float items ++ "]").toList,
      .nil, ?_⟩
    simp [toml_inlineDisplay, inlineText, inlineItems]

/-- Sections are tables, and arrays of tables. -/
def isSectionTy : Ty → Bool
  | .table _ => true
  | .array (.table _) => true
  | _ => false

/-- A section is a table or a list of tables. -/
theorem Config.section_cases {c : Config} {name : String} {v : Value}
    (hv : walkSegments [.field name] c.view = some v) :
    (∃ entries, v = .table entries) ∨
      ∃ items, v = .array items ∧ ∀ x ∈ items, ∃ entries, x = .table entries := by
  have hall : sectionTys.all (fun f => isSectionTy f.2.2) = true := by decide +kernel
  obtain ⟨t, hat, hs⟩ := shaped_walk distinctFields_of_tidy Config.tidy_ty c.shaped_view hv
  obtain ⟨f, hf, hft⟩ := Option.bind_eq_some_iff.mp hat
  cases hft
  have hty := List.all_eq_true.mp hall _ (Assoc.mem_of_lookup hf)
  cases hf2 : f.2 with
  | string | boolean | unsigned bits =>
      simp only [hf2] at hty
      cases hty
  | table fields =>
      rw [hf2] at hs
      obtain ⟨l, rfl, _⟩ := hs
      exact Or.inl ⟨_, rfl⟩
  | array t =>
      rw [hf2] at hs
      obtain ⟨items, rfl, hitems⟩ := hs
      refine Or.inr ⟨items, rfl, fun x hx => ?_⟩
      cases t with
      | table fields =>
          obtain ⟨l, hl, _⟩ := hitems x hx
          exact ⟨_, hl⟩
      | string | boolean | unsigned bits | array t =>
          simp only [hf2] at hty
          cases hty

/-- The value of a section is no document, with anything behind it. -/
theorem not_document_section {D : Display} (hD : Inline D) {c : Config} {name : String} {v : Value}
    (hv : walkSegments [.field name] c.view = some v) {val : List Char → Prop}
    {es : List (List Char)} (tail : List Char) :
    ¬ Document val es ((D.toml v).toList ++ tail) := by
  rcases Config.section_cases hv with ⟨entries, rfl⟩ | ⟨items, rfl, hitems⟩
  · obtain ⟨rest, hrest⟩ := hD.table entries
    rw [hrest]
    exact not_document_of_head (by decide) (by decide) (by decide)
  · -- behind the bracket there is a brace, or another one
    have hfirst : ∃ gap d rest, Gap gap ∧ d ∈ ['{', ']'] ∧
        (D.toml (.array items)).toList = '[' :: (gap ++ d :: rest) := by
      cases items with
      | nil =>
          obtain ⟨gap, rest, hgap, htext⟩ := hD.nil
          exact ⟨gap, ']', rest, hgap, by simp, htext⟩
      | cons x items =>
          obtain ⟨entries, rfl⟩ := hitems x List.mem_cons_self
          obtain ⟨gap, rest, hgap, htext⟩ := hD.cons (.table entries) items
          obtain ⟨more, hmore⟩ := hD.table entries
          rw [hmore] at htext
          exact ⟨gap, '{', more ++ rest, hgap, by simp, htext⟩
    obtain ⟨gap, d, rest, hgap, hd, htext⟩ := hfirst
    obtain ⟨w, x, t, hsplit, hw, hx⟩ := hgap.first d (rest ++ tail)
    rw [htext, List.cons_append, List.append_assoc, List.cons_append, hsplit]
    have hchar : x ∈ ['{', ']', '#', '\n', '\r'] := by
      rcases hx with rfl | hx
      · simp only [List.mem_cons, List.not_mem_nil, or_false] at hd ⊢
        tauto
      · simp only [List.mem_cons, List.not_mem_nil, or_false] at hx ⊢
        tauto
    simp only [List.mem_cons, List.not_mem_nil, or_false] at hchar
    rcases hchar with rfl | rfl | rfl | rfl | rfl <;>
      exact not_document_of_bracket hw (by decide) (by decide) (by decide)

/-- Names of sections are on one line. -/
theorem Config.section_oneLine {c : Config} {name : String} {v : Value}
    (hv : walkSegments [.field name] c.view = some v) : '\n' ∉ name.toList := by
  have hall : sectionTys.all (fun f => decide ('\n' ∉ f.1.toList)) = true := by decide +kernel
  obtain ⟨t, hat, _⟩ := shaped_walk distinctFields_of_tidy Config.tidy_ty c.shaped_view hv
  obtain ⟨f, hf, _⟩ := Option.bind_eq_some_iff.mp hat
  exact of_decide_eq_true (List.all_eq_true.mp hall _ (Assoc.mem_of_lookup hf))

/-- What is printed of a section is no document. -/
theorem not_document_listToml {D : Display} (hD : Inline D) {c : Config} {name : String} {v : Value}
    (hv : walkSegments [.field name] c.view = some v) {val : List Char → Prop}
    {es : List (List Char)} {text : String} (htext : listToml D c name = some text) :
    ¬ Document val es text.toList := by
  intro hdoc
  rw [listToml, hv] at htext
  cases htext
  have hlist : ("[" ++ name ++ "]\n" ++ D.toml v ++ "\n").toList =
      ('[' :: name.toList) ++ ']' :: '\n' :: ((D.toml v).toList ++ ['\n']) := by simp
  rw [hlist] at hdoc
  have hline : '\n' ∉ '[' :: name.toList := by simp [Config.section_oneLine hv]
  obtain ⟨es', hrest⟩ := hdoc.rest hline rfl
  exact not_document_section hD hv _ hrest

/-- **Listing a section.**  Whatever the values of TOML look like and whatever
documents mean, the output for a section that is there is never a document that
says just that section. -/
theorem list_section_never (D : Display) (hD : Inline D) (val : List Char → Prop)
    (meaning : List (List Char) → Option Value) (c : Config) (name : String) (v : Value)
    (hv : walkSegments [.field name] c.view = some v) :
    ¬ ∃ text es, listToml D c name = some text ∧ Document val es text.toList ∧
      meaning es = some (.table [(name, v)]) := by
  rintro ⟨text, es, htext, hdoc, _⟩
  exact not_document_listToml hD hv htext hdoc

def namedHost : Config := { Config.empty with hostname := some ⟨"web1"⟩ }

/-- Floats do not occur. -/
def plainDisplay : Display := inlineDisplay fun _ => "nan"

theorem list_section_never_hostname :
    listToml plainDisplay namedHost "hostname" =
        some "[hostname]\n\x7b name = \"web1\" \x7d\n" ∧
      ∀ (val : List Char → Prop) (meaning : List (List Char) → Option Value),
        ¬ ∃ text es, listToml plainDisplay namedHost "hostname" = some text ∧
          Document val es text.toList ∧
          meaning es = some (.table [("hostname", .table [("name", .string "web1")])]) :=
  ⟨by decide +kernel, fun val meaning =>
    list_section_never _ (inline_inlineDisplay _) val meaning namedHost "hostname" _ rfl⟩

/-- No reading of values makes a document of a listed host name. -/
theorem hostname_listed_no_document : ¬ ∃ (val : List Char → Prop)
    (meaning : List (List Char) → Option Value), ∀ (c : Config) (name : String) (v : Value),
      walkSegments [.field name] c.view = some v →
        ∃ text es, listToml plainDisplay c name = some text ∧ Document val es text.toList ∧
          meaning es = some (.table [(name, v)]) := by
  rintro ⟨val, meaning, h⟩
  obtain ⟨text, es, htext, hdoc, _⟩ := h namedHost "hostname" _ rfl
  exact not_document_listToml (inline_inlineDisplay _) rfl htext hdoc

end Zebrafish.ConfigTool
