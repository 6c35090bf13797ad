import Mathlib.Data.List.Nodup
import Mathlib.Logic.Basic

/-!
# Validation flags

The flags of the script interpreter that the interface offers. Their text names the
flags that are set, in a fixed order, and no text stands for two sets of them.
-/

namespace StdBitcoin

/-- `validation_flags`, an enumeration over `std::uint_least32_t`. -/
structure ValidationFlags where
  raw : UInt32
deriving DecidableEq

namespace ValidationFlags

/-- No flag. -/
def none : ValidationFlags := ⟨0⟩

/-- Scripts behind a script hash (BIP 16). -/
def p2sh : ValidationFlags := ⟨(1 : UInt32) <<< 0⟩

/-- Strict encoding of signatures (BIP 66). -/
def dersig : ValidationFlags := ⟨(1 : UInt32) <<< 2⟩

/-- The dummy element is empty (BIP 147). -/
def nulldummy : ValidationFlags := ⟨(1 : UInt32) <<< 4⟩

/-- `OP_CHECKLOCKTIMEVERIFY` (BIP 65). -/
def checklocktimeverify : ValidationFlags := ⟨(1 : UInt32) <<< 9⟩

/-- `OP_CHECKSEQUENCEVERIFY` (BIP 112). -/
def checksequenceverify : ValidationFlags := ⟨(1 : UInt32) <<< 10⟩

/-- Segregated witness (BIP 141). -/
def witness : ValidationFlags := ⟨(1 : UInt32) <<< 11⟩

/-- Taproot (BIPs 341 and 342). -/
def taproot : ValidationFlags := ⟨(1 : UInt32) <<< 17⟩

/-- `operator|`. -/
instance : OrOp ValidationFlags := ⟨fun l r => ⟨l.raw ||| r.raw⟩⟩

/-- `operator~`. -/
instance : Complement ValidationFlags := ⟨fun f => ⟨~~~f.raw⟩⟩

/-- All flags of the interface. -/
def all : ValidationFlags :=
  p2sh ||| dersig ||| nulldummy ||| checklocktimeverify ||| checksequenceverify ||| witness |||
    taproot

/-- `is_set`: the words have a bit in common. -/
def isSet (f flag : ValidationFlags) : Bool := f.raw &&& flag.raw != 0

/-- The flags with their names, in the order of the text. -/
def entries : List (ValidationFlags × List Char) :=
  [(p2sh, "P2SH".toList), (dersig, "DERSIG".toList), (nulldummy, "NULLDUMMY".toList),
    (checklocktimeverify, "CHECKLOCKTIMEVERIFY".toList),
    (checksequenceverify, "CHECKSEQUENCEVERIFY".toList), (witness, "WITNESS".toList),
    (taproot, "TAPROOT".toList)]

/-- The loop over the entries, with the text so far and whether no name is in it. -/
def formatEntries (flags : ValidationFlags) :
    List (ValidationFlags × List Char) → List Char → Bool → List Char
  | [], out, _ => out
  | (f, name) :: rest, out, first =>
      if !flags.isSet f then
        formatEntries flags rest out first
      else
        let out := if !first then out ++ ['|'] else out
        formatEntries flags rest (out ++ name) false

/-- The characters that `std::formatter<validation_flags>::format` writes. -/
def format (flags : ValidationFlags) : List Char :=
  if flags = none then "NONE".toList else formatEntries flags entries [] true

/-- The names of the flags that are set. -/
def names (flags : ValidationFlags) (listed : List (ValidationFlags × List Char)) :
    List (List Char) :=
  (listed.filter fun entry => flags.isSet entry.1).map Prod.snd

theorem names_cons (flags f : ValidationFlags) (name : List Char)
    (rest : List (ValidationFlags × List Char)) :
    flags.names ((f, name) :: rest) =
      if flags.isSet f then name :: flags.names rest else flags.names rest := by
  rw [names, List.filter_cons]
  split <;> rfl

/-- After the first name every name comes with a separator. -/
theorem formatEntries_false (flags : ValidationFlags)
    (listed : List (ValidationFlags × List Char)) (out : List Char) :
    formatEntries flags listed out false = out ++ (flags.names listed).flatMap ('|' :: ·) := by
  induction listed generalizing out with
  | nil => exact (List.append_nil out).symm
  | cons entry rest ih =>
      obtain ⟨f, name⟩ := entry
      rw [formatEntries, names_cons]
      cases set : flags.isSet f with
      | false => exact ih out
      | true =>
          simp only [Bool.not_true, Bool.not_false, Bool.false_eq_true, if_false, if_true]
          rw [ih, List.flatMap_cons]
          simp

/-- A joined list is its head, and every further part behind a separator. -/
theorem intercalate_cons (separator : Char) (head : List Char) (tail : List (List Char)) :
    [separator].intercalate (head :: tail) = head ++ tail.flatMap (separator :: ·) := by
  induction tail generalizing head with
  | nil => simp
  | cons next tail ih => rw [List.intercalate_cons_cons, ih, List.flatMap_cons]; simp

/-- The loop over the entries joins the names of those that are set. -/
theorem formatEntries_true (flags : ValidationFlags)
    (listed : List (ValidationFlags × List Char)) :
    formatEntries flags listed [] true = ['|'].intercalate (flags.names listed) := by
  induction listed with
  | nil => rfl
  | cons entry rest ih =>
      obtain ⟨f, name⟩ := entry
      rw [formatEntries, names_cons]
      cases set : flags.isSet f with
      | false => exact ih
      | true =>
          simp only [Bool.not_true, Bool.false_eq_true, if_false, if_true]
          rw [formatEntries_false, intercalate_cons, List.nil_append]

section Entries

/-- No name has the separator in it. -/
theorem separator_not_mem : ∀ entry ∈ entries, '|' ∉ entry.2 := by decide

/-- No two flags have one name. -/
theorem names_nodup : (entries.map Prod.snd).Nodup := by decide

theorem none_not_mem : "NONE".toList ∉ entries.map Prod.snd := by decide

theorem nil_not_mem : [] ∉ entries.map Prod.snd := by decide

end Entries

/-- Only names of flags are listed. -/
theorem mem_names {flags : ValidationFlags} {name : List Char}
    (member : name ∈ flags.names entries) : name ∈ entries.map Prod.snd := by
  obtain ⟨entry, kept, rfl⟩ := List.mem_map.mp member
  exact List.mem_map_of_mem (List.mem_of_mem_filter kept)

/-- The text splits into the names, and an empty text into an empty one. -/
theorem splitOn_format (flags : ValidationFlags) :
    (['|'].intercalate (flags.names entries)).splitOn '|' =
      if flags.names entries = [] then [[]] else flags.names entries := by
  split
  · rename_i empty
    rw [empty]
    rfl
  · rename_i some
    refine List.splitOn_intercalate '|' (fun name member => ?_) some
    obtain ⟨entry, listed, rfl⟩ := List.mem_map.mp (mem_names member)
    exact separator_not_mem entry listed

/-- Names joined in two ways are the same names. -/
theorem intercalate_names_inj {f g : ValidationFlags}
    (same : ['|'].intercalate (f.names entries) = ['|'].intercalate (g.names entries)) :
    f.names entries = g.names entries := by
  have pieces := congrArg (List.splitOn '|') same
  rw [splitOn_format, splitOn_format] at pieces
  have apart {flags : ValidationFlags} : flags.names entries ≠ [[]] := fun only =>
    nil_not_mem (mem_names (only ▸ List.mem_singleton_self _))
  split at pieces <;> split at pieces
  · rename_i f_empty g_empty
    rw [f_empty, g_empty]
  · exact absurd pieces.symm apart
  · exact absurd pieces apart
  · exact pieces

/-- What is joined of names is never the text for no flag. -/
theorem intercalate_names_ne_none (flags : ValidationFlags) :
    ['|'].intercalate (flags.names entries) ≠ "NONE".toList := by
  intro same
  have pieces := congrArg (List.splitOn '|') same
  rw [splitOn_format] at pieces
  split at pieces
  · exact absurd pieces (by decide)
  · have member : "NONE".toList ∈ flags.names entries := by
      rw [pieces]
      decide
    exact none_not_mem (mem_names member)

/-- The names are those of the flags that are set. -/
theorem names_eq_iff (f g : ValidationFlags) :
    f.names entries = g.names entries ↔ ∀ entry ∈ entries, f.isSet entry.1 = g.isSet entry.1 := by
  constructor
  · intro same entry member
    have listed (flags : ValidationFlags) :
        entry.2 ∈ flags.names entries ↔ flags.isSet entry.1 = true := by
      constructor
      · intro named
        obtain ⟨other, kept, agree⟩ := List.mem_map.mp named
        obtain ⟨present, set⟩ := List.mem_filter.mp kept
        rwa [← List.inj_on_of_nodup_map names_nodup present member agree]
      · intro set
        exact List.mem_map_of_mem (List.mem_filter.mpr ⟨member, set⟩)
    rw [Bool.eq_iff_iff, ← listed, ← listed, same]
  · intro same
    exact congrArg (List.map Prod.snd) (List.filter_congr same)

/-- One text stands for one set of the known flags, and `NONE` for no flag at all, known or
unknown. -/
theorem format_eq_iff (f g : ValidationFlags) :
    f.format = g.format ↔
      (f = none ↔ g = none) ∧ ∀ entry ∈ entries, f.isSet entry.1 = g.isSet entry.1 := by
  rw [← names_eq_iff, format, format, formatEntries_true, formatEntries_true]
  split <;> split
  · rename_i f_none g_none
    rw [f_none, g_none]
    simp
  · rename_i f_none g_some
    exact iff_of_false (intercalate_names_ne_none g).symm fun same => g_some (same.1.mp f_none)
  · rename_i f_some g_none
    exact iff_of_false (intercalate_names_ne_none f) fun same => f_some (same.1.mpr g_none)
  · rename_i f_some g_some
    exact ⟨fun same => ⟨iff_of_false f_some g_some, intercalate_names_inj same⟩,
      fun same => congrArg _ same.2⟩

example : (witness ||| p2sh).format = "P2SH|WITNESS".toList := by decide

end ValidationFlags

end StdBitcoin
