import Tetrad.Program.Labels

namespace Tetrad.Labels

/-- The labels in the order of their names. -/
def byName (labels : Labels) : List (String × UInt16) :=
  labels.places.mergeSort fun a b => decide (a.1 ≤ b.1)

/-- A member of an object. A label needs no escapes. -/
private def member (indent : String) (entry : String × UInt16) : String :=
  indent ++ "\"" ++ entry.1 ++ "\": " ++ Numeral.decimal entry.2.toNat

/-- The symbol table, indented by two spaces. -/
def json (labels : Labels) : String :=
  let members :=
    match labels.byName with
    | [] => "\x7b\x7d"
    | entries =>
      "\x7b\n" ++ String.intercalate ",\n" (entries.map (member "    ")) ++ "\n  \x7d"
  "\x7b\n" ++ member "  " ("base", labels.base) ++ ",\n  \"labels\": " ++ members ++ "\n\x7d"

/-- The characters in front of the value of a member. -/
def keyText (indent name : List Char) : List Char := indent ++ '"' :: name ++ ['"', ':', ' ']

/-- The characters of members with numbers, one on each line. -/
def membersText (entries : List (String × UInt16)) : List Char :=
  [',', '\n'].intercalate (entries.map fun entry =>
    keyText [' ', ' ', ' ', ' '] entry.1.toList ++ Numeral.digits 10 entry.2.toNat)

/-- The characters of an object of such members. -/
def objectText (entries : List (String × UInt16)) : List Char :=
  if entries = [] then ['\x7b', '\x7d']
  else '\x7b' :: '\n' :: (membersText entries ++ ['\n', ' ', ' ', '\x7d'])

private theorem toList_member (indent : String) (entry : String × UInt16) :
    (member indent entry).toList =
      keyText indent.toList entry.1.toList ++ Numeral.digits 10 entry.2.toNat := by
  simp [member, keyText, Numeral.decimal]

theorem toList_json (labels : Labels) : labels.json.toList =
    '\x7b' :: '\n' :: (keyText [' ', ' '] "base".toList ++ (Numeral.digits 10 labels.base.toNat ++
      ',' :: '\n' :: (keyText [' ', ' '] "labels".toList ++
        (objectText labels.byName ++ ['\n', '\x7d'])))) := by
  unfold json
  cases labels.byName with
  | nil => simp [toList_member, keyText, objectText]
  | cons entry rest =>
    have texts : ((entry :: rest).map (member "    ")).map String.toList =
        (entry :: rest).map fun entry =>
          keyText [' ', ' ', ' ', ' '] entry.1.toList ++ Numeral.digits 10 entry.2.toNat := by
      rw [List.map_map]
      exact List.map_congr_left fun entry _ => toList_member "    " entry
    simp only [String.toList_append, String.toList_intercalate, texts, toList_member]
    simp [keyText, membersText, objectText]

end Tetrad.Labels
