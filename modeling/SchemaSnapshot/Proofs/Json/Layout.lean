import SchemaSnapshot.Json.Printer
import SchemaSnapshot.Proofs.Json.Grammar

namespace SchemaSnapshot.Json
open Grammar

/-- The blanks before an item or a closing bracket inside so many arrays and objects, and those
after a colon. -/
structure Layout where
  line : Nat → List Blank
  colon : List Blank

namespace Layout

def indented : Layout where
  line depth := ⟨'\n', by decide⟩ :: List.replicate (2 * depth) ⟨' ', by decide⟩
  colon := [⟨' ', by decide⟩]

def tight : Layout := ⟨fun _ => [], []⟩

theorem unattach_indented_line (depth : Nat) :
    (indented.line depth).unattach = Value.newLine depth := by
  simp [indented, Value.newLine]

def label (f : Layout) (depth : Nat) (key : Literal) : Label :=
  ⟨f.line depth, key, [], f.colon⟩

def labelChars (f : Layout) (depth : Nat) (key : String) : List Char :=
  (f.line depth).unattach ++ (literal key ++ (':' :: f.colon.unattach))

theorem label_chars (f : Layout) (depth : Nat) {l : Literal} (h : l.chars = literal key) :
    (f.label depth l).chars = f.labelChars depth key := by
  rw [Label.chars, label, h, labelChars]
  rfl

end Layout

namespace Value

mutual

def laidOut (f : Layout) (depth : Nat) : Value → List Char
  | .null => "null".toList
  | .bool true => "true".toList
  | .bool false => "false".toList
  | .number text => text.toList
  | .string s => literal s
  | .array [] => ['[', ']']
  | .array (v :: vs) =>
    '[' :: ((f.line (depth + 1)).unattach ++
      (laidOut f (depth + 1) v ++ tailLaidOut f depth vs))
  | .object [] => ['{', '}']
  | .object ((k, v) :: ms) =>
    '{' :: (f.labelChars (depth + 1) k ++
      (laidOut f (depth + 1) v ++ entriesLaidOut f depth ms))

def tailLaidOut (f : Layout) (depth : Nat) : List Value → List Char
  | [] => (f.line depth).unattach ++ [']']
  | v :: vs =>
    ',' :: ((f.line (depth + 1)).unattach ++
      (laidOut f (depth + 1) v ++ tailLaidOut f depth vs))

def entriesLaidOut (f : Layout) (depth : Nat) : List (String × Value) → List Char
  | [] => (f.line depth).unattach ++ ['}']
  | (k, v) :: ms =>
    ',' :: (f.labelChars (depth + 1) k ++
      (laidOut f (depth + 1) v ++ entriesLaidOut f depth ms))

end

mutual

theorem flatten_pieces (v : Value) (depth : Nat) :
    (v.pieces depth).flatten = v.laidOut .indented depth := by
  match v with
  | .null => rfl
  | .bool true => rfl
  | .bool false => rfl
  | .number text => rw [pieces, laidOut, List.flatten_singleton]
  | .string s => rw [pieces, laidOut, List.flatten_singleton]
  | .array [] => rfl
  | .array (v :: vs) =>
    rw [pieces, laidOut, Layout.unattach_indented_line, ← flatten_pieces v (depth + 1),
      ← flatten_itemPieces vs depth]
    simp
  | .object [] => rfl
  | .object ((k, v) :: ms) =>
    rw [pieces, laidOut, Layout.labelChars, Layout.unattach_indented_line,
      ← flatten_pieces v (depth + 1), ← flatten_memberPieces ms depth]
    simp [Layout.indented]

theorem flatten_itemPieces (vs : List Value) (depth : Nat) :
    (itemPieces (depth + 1) vs).flatten ++ (newLine depth ++ [']']) =
      tailLaidOut .indented depth vs := by
  match vs with
  | [] => rw [itemPieces, tailLaidOut, Layout.unattach_indented_line, List.flatten_nil,
      List.nil_append]
  | v :: vs =>
    rw [itemPieces, tailLaidOut, Layout.unattach_indented_line, ← flatten_pieces v (depth + 1),
      ← flatten_itemPieces vs depth]
    simp

theorem flatten_memberPieces (ms : List (String × Value)) (depth : Nat) :
    (memberPieces (depth + 1) ms).flatten ++ (newLine depth ++ ['}']) =
      entriesLaidOut .indented depth ms := by
  match ms with
  | [] => rw [memberPieces, entriesLaidOut, Layout.unattach_indented_line, List.flatten_nil,
      List.nil_append]
  | (k, v) :: ms =>
    rw [memberPieces, entriesLaidOut, Layout.labelChars, Layout.unattach_indented_line,
      ← flatten_pieces v (depth + 1), ← flatten_memberPieces ms depth]
    simp [Layout.indented]

end

theorem prettyChars_eq (v : Value) : v.prettyChars = v.laidOut .indented 0 :=
  v.flatten_pieces 0

mutual

theorem compactChars_eq (v : Value) (depth : Nat) :
    v.compactChars = v.laidOut .tight depth := by
  match v with
  | .null => rfl
  | .bool true => rfl
  | .bool false => rfl
  | .number text => rw [compactChars, laidOut]
  | .string s => rw [compactChars, laidOut]
  | .array [] => rfl
  | .array (v :: vs) =>
    have h := compactItems_eq (v :: vs) depth (List.cons_ne_nil v vs)
    rw [tailLaidOut] at h
    rw [compactChars, laidOut, (List.cons.inj h).2]
  | .object [] => rfl
  | .object ((k, v) :: ms) =>
    have h := compactMembers_eq ((k, v) :: ms) depth (List.cons_ne_nil _ ms)
    rw [entriesLaidOut] at h
    rw [compactChars, laidOut, (List.cons.inj h).2]

theorem compactItems_eq (vs : List Value) (depth : Nat) (h : vs ≠ []) :
    ',' :: (compactItems vs ++ [']']) = tailLaidOut .tight depth vs := by
  match vs with
  | [] => exact absurd rfl h
  | [v] =>
    rw [compactItems, tailLaidOut, tailLaidOut, compactChars_eq v (depth + 1)]
    rfl
  | v :: w :: vs =>
    have hne := List.cons_ne_nil w vs
    rw [compactItems.eq_3 v _ hne, tailLaidOut, compactChars_eq v (depth + 1),
      ← compactItems_eq (w :: vs) depth hne, List.append_assoc]
    rfl

theorem compactMembers_eq (ms : List (String × Value)) (depth : Nat) (h : ms ≠ []) :
    ',' :: (compactMembers ms ++ ['}']) = entriesLaidOut .tight depth ms := by
  match ms with
  | [] => exact absurd rfl h
  | [(k, v)] =>
    rw [compactMembers, entriesLaidOut, entriesLaidOut, compactChars_eq v (depth + 1)]
    simp [Layout.labelChars, Layout.tight]
  | (k, v) :: m :: ms =>
    have hne := List.cons_ne_nil m ms
    rw [compactMembers.eq_3 k v _ hne, entriesLaidOut, compactChars_eq v (depth + 1),
      ← compactMembers_eq (m :: ms) depth hne]
    simp [Layout.labelChars, Layout.tight]

end

end Value

namespace Layout

mutual

/-- The derivation of a document that stands inside `depth` arrays and objects. Empty arrays and
objects have nothing in their brackets; elsewhere each item, each member and each closing
bracket stands behind the blanks of its line, and nothing but a comma before these. -/
inductive Writes (f : Layout) : Nat → Value → Node → Prop
  | null : f.Writes depth .null .null
  | bool : f.Writes depth (.bool b) (.bool b)
  | number : text.toList = n.chars → f.Writes depth (.number text) (.number n)
  | string : l.chars = literal s → f.Writes depth (.string s) (.string l)
  | emptyArray : f.Writes depth (.array []) (.emptyArray [])
  | array : f.Writes (depth + 1) v n → f.WritesItems depth vs tail →
    f.Writes depth (.array (v :: vs)) (.array (f.line (depth + 1)) n tail)
  | emptyObject : f.Writes depth (.object []) (.emptyObject [])
  | object : l.chars = literal key → f.Writes (depth + 1) v n → f.WritesEntries depth ms tail →
    f.Writes depth (.object ((key, v) :: ms)) (.object (f.label (depth + 1) l) n tail)

inductive WritesItems (f : Layout) : Nat → List Value → ItemTail → Prop
  | close : f.WritesItems depth [] (.close (f.line depth))
  | next : f.Writes (depth + 1) v n → f.WritesItems depth vs tail →
    f.WritesItems depth (v :: vs) (.next [] (f.line (depth + 1)) n tail)

inductive WritesEntries (f : Layout) : Nat → List (String × Value) → EntryTail → Prop
  | close : f.WritesEntries depth [] (.close (f.line depth))
  | next : l.chars = literal key → f.Writes (depth + 1) v n → f.WritesEntries depth ms tail →
    f.WritesEntries depth ((key, v) :: ms) (.next [] (f.label (depth + 1) l) n tail)

end

variable {f : Layout}

mutual

theorem Writes.chars (h : f.Writes depth v n) : n.chars = v.laidOut f depth := by
  match h with
  | .null => rfl
  | .bool (b := true) => rfl
  | .bool (b := false) => rfl
  | .number ht => rw [Node.chars, Value.laidOut, ht]
  | .string hl => rw [Node.chars, Value.laidOut, hl]
  | .emptyArray => rfl
  | .array hv ht => rw [Node.chars, hv.chars, ht.chars, Value.laidOut]
  | .emptyObject => rfl
  | .object hl hv ht =>
    rw [Node.chars, f.label_chars _ hl, hv.chars, ht.chars, Value.laidOut]

theorem WritesItems.chars (h : f.WritesItems depth vs tail) :
    tail.chars = Value.tailLaidOut f depth vs := by
  match h with
  | .close => rfl
  | .next hv ht =>
    rw [ItemTail.chars, hv.chars, ht.chars, Value.tailLaidOut]
    rfl

theorem WritesEntries.chars (h : f.WritesEntries depth ms tail) :
    tail.chars = Value.entriesLaidOut f depth ms := by
  match h with
  | .close => rfl
  | .next hl hv ht =>
    rw [EntryTail.chars, f.label_chars _ hl, hv.chars, ht.chars, Value.entriesLaidOut]
    rfl

end

end Layout

namespace Value

theorem octets_pretty (v : Value) : octets v.pretty = Utf8.encode (v.laidOut .indented 0) := by
  rw [octets, pretty, prettyChars_eq, String.toList_ofList]

theorem octets_compact (v : Value) : octets v.compact = Utf8.encode (v.laidOut .tight 0) := by
  rw [octets, compact, v.compactChars_eq 0, String.toList_ofList]

end Value

end SchemaSnapshot.Json
