import SystemProgramming.Championship.Tournament
import SystemProgramming.Stdio
import Mathlib.Data.List.DropRight

namespace SystemProgramming.Championship

open Network Transition Scanner Stdio
open Booking (isSpace isDigit ascii)

/-!
# Championship — `player_status.txt`

How a real player reads its row: it uses one format as often as there are rows up to its own, and
takes what the variables hold then.

* `readRow` — the loop over `fscanf`;
* `StatusFile` — the rows in a file, and how they may be written;
* `readRow_eq` — a player reads its own row, or the last one when there are not enough;
* `tournament_of_file` — so the tournament that is played is that of the rows in the file.
-/

/-! ### `fscanf` -/

/-- The variables that `fscanf` assigns. -/
structure Scanned where
  hp : ℤ
  atk : ℤ
  att : List UInt8
  cur : UInt8
  fl : ℤ

/-- `"%d %d %s %c %d\n"` with the addresses of the variables. -/
def rowFormat : List (Conversion UInt8 (Scanned → Scanned)) :=
  [decimal.map fun hp v => { v with hp },
    (white isSpace).map fun _ => id,
    decimal.map fun atk v => { v with atk },
    (white isSpace).map fun _ => id,
    (word isSpace none).map fun att v => { v with att },
    (white isSpace).map fun _ => id,
    char.map fun cur v => { v with cur },
    (white isSpace).map fun _ => id,
    decimal.map fun fl v => { v with fl },
    (white isSpace).map fun _ => id]

/-- The name of an attribute in the file. -/
def Attribute.name : Attribute → List UInt8
  | .FIRE => ascii "FIRE"
  | .GRASS => ascii "GRASS"
  | .WATER => ascii "WATER"

/-- The comparisons of `att`; `unset` is what `P.attr` held before. -/
def attributeOf (att : List UInt8) (unset : Attribute) : Attribute :=
  if att = Attribute.name .FIRE then .FIRE
  else if att = Attribute.name .GRASS then .GRASS
  else if att = Attribute.name .WATER then .WATER
  else unset

/-- What real player `player` reads; `v` and `unset` are what its variables held before. -/
def readRow (file : List UInt8) (v : Scanned) (unset : Attribute) (player : ℕ) : Row :=
  let v := ((scan rowFormat)^[player + 1] (file, v)).2
  { HP := v.hp
    ATK := v.atk
    attr := attributeOf v.att unset
    current_battle_id := Char.ofNat v.cur.toNat
    battle_ended_flag := v.fl }

/-! ### The file -/

/-- The byte of a battle. -/
def idByte (c : Char) : UInt8 := UInt8.ofNat c.toNat

/-- A way to write a row.  Only behind the first number and behind the attribute there have to be
    blanks. -/
structure RowLayout (r : Row) where
  start : Blanks
  hp : List UInt8
  hp_numeral : Numeral hp r.HP
  afterHP : Blanks
  afterHP_ne : afterHP.val ≠ []
  atk : List UInt8
  atk_numeral : Numeral atk r.ATK
  afterATK : Blanks
  afterAttr : Blanks
  afterAttr_ne : afterAttr.val ≠ []
  id_lt : r.current_battle_id.toNat < 256
  id_space : isSpace (idByte r.current_battle_id) = false
  afterId : Blanks
  fl : List UInt8
  fl_numeral : Numeral fl r.battle_ended_flag

/-- The bytes of a row. -/
def RowLayout.text {r : Row} (w : RowLayout r) : List UInt8 :=
  (w.start.val ++ w.hp) ++ (w.afterHP.val ++ (w.atk ++ (w.afterATK.val ++ (r.attr.name ++
    (w.afterAttr.val ++ ([idByte r.current_battle_id] ++ (w.afterId.val ++ w.fl)))))))

/-- A file of rows, and behind them a text that no row starts with. -/
inductive StatusFile : List Row → List UInt8 → Prop
  | tail {text : List UInt8} (hsign : Stops isSign (text.dropWhile isSpace))
      (hdigit : Stops isDigit (text.dropWhile isSpace)) : StatusFile [] text
  | row {r : Row} {rows : List Row} {text : List UInt8} (w : RowLayout r)
      (hrest : Stops isDigit text) (h : StatusFile rows text) :
      StatusFile (r :: rows) (w.text ++ text)

/-- The variables after a row has been read. -/
def Row.scanned (r : Row) : Scanned :=
  ⟨r.HP, r.ATK, r.attr.name, idByte r.current_battle_id, r.battle_ended_flag⟩

variable {r : Row} {rows : List Row} {l text rest pad w : List UInt8} {v : Scanned}

/-! ### A row -/

/-- `%s` takes the name of an attribute as a whole. -/
theorem name_spec (a : Attribute) : a.name ≠ [] ∧ ∀ c ∈ a.name, isSpace c = false := by
  have hall : a.name.all (fun c => !isSpace c) = true := by cases a <;> decide
  exact ⟨by cases a <;> decide, fun c hc => by simpa using List.all_eq_true.mp hall c hc⟩

/-- In front of a name, blanks and digits stop. -/
theorem name_stops (a : Attribute) (rest : List UInt8) :
    Stops isSpace (a.name ++ rest) ∧ Stops isDigit (a.name ++ rest) := by
  cases a <;> exact ⟨stops_cons.mpr (by decide), stops_cons.mpr (by decide)⟩

/-- **One use of the format** reads a row and the blanks behind it. -/
theorem scan_row (w : RowLayout r) (hrest : Stops isDigit rest) (v : Scanned) :
    scan rowFormat (w.text ++ rest, v) = (rest.dropWhile isSpace, r.scanned) := by
  have hatk : Stops isSpace w.atk := w.atk_numeral.stops_space
  have hfl : Stops isSpace w.fl := w.fl_numeral.stops_space
  have hname := name_stops r.attr
  obtain ⟨hne, hspace⟩ := name_spec r.attr
  have hid : Stops isSpace [idByte r.current_battle_id] := stops_cons.mpr w.id_space
  -- the fields of the format are read one after the other, each up to the blank behind it
  simp only [RowLayout.text, rowFormat, List.append_assoc]
  rw [scan_decimal _ w.start.property w.hp_numeral (w.afterHP.stops w.afterHP_ne).1,
    scan_white w.afterHP.property (hatk.append w.atk_numeral.ne_nil)]
  rw [← List.nil_append (w.atk ++ _), scan_decimal _ (by simp) w.atk_numeral
      (w.afterATK.stops_digit (hname _).2),
    scan_white w.afterATK.property (hname _).1,
    scan_word none _ hne hspace (by simp) (w.afterAttr.stops w.afterAttr_ne).2,
    scan_white w.afterAttr.property (hid.append (by simp)), scan_cons ((finds_char _).map _),
    scan_white w.afterId.property (hfl.append w.fl_numeral.ne_nil)]
  rw [← List.nil_append (w.fl ++ _), scan_decimal _ (by simp) w.fl_numeral hrest]
  rfl

/-- Blanks in front of a row make no difference. -/
theorem scan_dropWhile (l : List UInt8) (v : Scanned) :
    scan rowFormat (l.dropWhile isSpace, v) = scan rowFormat (l, v) := by
  simp only [rowFormat, scan, decimal, Conversion.map, number, List.dropWhile_idempotent]

/-! ### The loop -/

/-- Where no number starts, the first `%d` fails. -/
theorem decimal_fails (assign : ℤ → Scanned → Scanned) (hsign : Stops isSign (l.dropWhile isSpace))
    (hdigit : Stops isDigit (l.dropWhile isSpace)) :
    decimal.map assign l = (none, l.dropWhile isSpace) := by
  simp only [decimal, Conversion.map, number_fails hsign hdigit, Option.map_none]

/-- The rows of the file are the records of the format. -/
theorem StatusFile.records (h : StatusFile rows text)
    (hl : l.dropWhile isSpace = text.dropWhile isSpace) :
    Records rowFormat Row.scanned rows l := by
  -- a file is a list of rows with a tail that no row starts with
  induction h generalizing l with
  | tail hsign hdigit =>
    rw [← hl] at hsign hdigit
    have hdrop := List.dropWhile_idempotent isSpace l
    have hagain := decimal_fails (l := l.dropWhile isSpace) (fun hp v => { v with hp })
      (by rwa [hdrop]) (by rwa [hdrop])
    rw [hdrop] at hagain
    -- the tail fails at once, so the scanned record keeps the last row
    exact .tail (stuck_of_fails (decimal_fails _ hsign hdigit) hagain)
  | @row r rows text w hrest h ih =>
    have hrecords : Records rowFormat Row.scanned rows (text.dropWhile isSpace) :=
      ih (List.dropWhile_idempotent isSpace text)
    refine .cons (fun v => ?_) hrecords
    -- `fscanf` skips the blanks in front, so the row may start in front of them
    rw [← scan_dropWhile, hl, scan_dropWhile]
    exact scan_row w hrest v

/-- The comparisons of `player.c` find the attribute, whatever was there before. -/
theorem attributeOf_name (a unset : Attribute) : attributeOf a.name unset = a := by
  cases a <;> cases unset <;> decide

/-- A character of one byte is read as it is. -/
theorem ofNat_idByte {c : Char} (h : c.toNat < 256) : Char.ofNat (idByte c).toNat = c := by
  have hbyte : (idByte c).toNat = c.toNat := by
    rw [idByte, UInt8.toNat_ofNat']
    omega
  rw [hbyte, Char.ofNat_toNat]

/-- The names of the battles are single bytes. -/
theorem StatusFile.id_lt (h : StatusFile rows text) :
    ∀ r ∈ rows, r.current_battle_id.toNat < 256 := by
  induction h with
  | tail => simp
  | row w hrest h ih => exact List.forall_mem_cons.mpr ⟨w.id_lt, ih⟩

/-- The row that a player takes for its own. -/
def ownRow (rows : List Row) (hne : rows ≠ []) (player : ℕ) : Row :=
  rows[player]?.getD (rows.getLast hne)

/-- **A player reads its own row**, or the last one when there are not enough, whatever its variables
    held before. -/
theorem readRow_eq (h : StatusFile rows text) (hne : rows ≠ []) (v : Scanned) (unset : Attribute)
    (player : ℕ) : readRow text v unset player = ownRow rows hne player := by
  have hmem : ownRow rows hne player ∈ rows := by
    unfold ownRow
    cases hrow : rows[player]? with
    | none => exact List.getLast_mem hne
    | some r => exact List.mem_of_getElem? hrow
  have hlast : ((rows.take (player + 1)).map Row.scanned).getLastD v =
      (ownRow rows hne player).scanned := by
    rw [List.getLastD_eq_getLast?, List.getLast?_map, List.getLast?_take, if_neg (by omega),
      Nat.add_sub_cancel, List.getLast?_eq_some_getLast hne, ownRow]
    cases rows[player]? <;> rfl
  unfold readRow
  rw [iterate_scan (h.records rfl), hlast]
  dsimp only
  simp only [Row.scanned, attributeOf_name, ofNat_idByte (h.id_lt _ hmem)]

/-- Of eight rows, every player has its own. -/
theorem ownRow_ofFn (rows : Fin 8 → Row) (hne : List.ofFn rows ≠ []) (i : Fin 8) :
    ownRow (List.ofFn rows) hne i = rows i := by
  rw [ownRow, List.getElem?_ofFn, dif_pos i.isLt]
  rfl

/-- **The tournament of a file.**  For every file of at least one row, the players start with its
    rows.  Where these are valid, every schedule comes to its end after the same number of steps,
    and the champion that has then been printed is that of the rows. -/
theorem tournament_of_file (h : StatusFile rows text) (hne : rows ≠ []) (v : Fin 8 → Scanned)
    (unset : Fin 8 → Attribute) :
    (∀ i : Fin 8, readRow text (v i) (unset i) i = ownRow rows hne i) ∧
    ((Valid fun i => ownRow rows hne i) → ∃ n, ∀ es s,
      runFrom (step (program fun i => readRow text (v i) (unset i) i)) start es = some s →
      ∃ rest t, runFrom (step (program fun i => readRow text (v i) (unset i) i)) s rest = some t ∧
        Halted (step (program fun i => readRow text (v i) (unset i) i)) t ∧
        rest.length + es.length = n ∧
        t.file .stdout = [.champion (champion fun i => ownRow rows hne i)]) := by
  have hread (i : Fin 8) : readRow text (v i) (unset i) i = ownRow rows hne i :=
    readRow_eq h hne (v i) (unset i) i
  have hprogram : (program fun i => readRow text (v i) (unset i) i) =
      program fun i => ownRow rows hne i := congrArg program (funext hread)
  -- the processes read only the row of their own id
  rw [hprogram]
  refine ⟨hread, fun hrows => ?_⟩
  obtain ⟨t, ⟨path, hpath⟩, ht⟩ := exists_final hrows
  refine ⟨path.length, fun es s hes => ?_⟩
  obtain ⟨rest, hlength, hrest⟩ := run_to_final hrows ht hpath hes
  -- the schedule of `exists_final` ends with the champion at the root
  obtain ⟨left, right, hroot, hchampion⟩ := ht.root
  refine ⟨rest, t, hrest, ht.halted, hlength, ?_⟩
  rw [stdout_eq ⟨path, hpath⟩, hroot, Local.printed, hchampion]

/-! ### The usual layout -/

/-- A row whose numbers are `int`s and whose battle is one visible character. -/
structure Row.Printable (r : Row) : Prop where
  HP : -2 ^ 31 ≤ r.HP ∧ r.HP < 2 ^ 31
  ATK : -2 ^ 31 ≤ r.ATK ∧ r.ATK < 2 ^ 31
  flag : -2 ^ 31 ≤ r.battle_ended_flag ∧ r.battle_ended_flag < 2 ^ 31
  id_lt : r.current_battle_id.toNat < 256
  id_space : isSpace (idByte r.current_battle_id) = false

/-- Decimal numbers with single spaces between the fields. -/
def RowLayout.plain (start : Blanks) (h : r.Printable) : RowLayout r where
  start := start
  hp := ascii (toString r.HP)
  hp_numeral := numeral_toString h.HP.1 h.HP.2
  afterHP := .one
  afterHP_ne := Blanks.one_ne_nil
  atk := ascii (toString r.ATK)
  atk_numeral := numeral_toString h.ATK.1 h.ATK.2
  afterATK := .one
  afterAttr := .one
  afterAttr_ne := Blanks.one_ne_nil
  id_lt := h.id_lt
  id_space := h.id_space
  afterId := .one
  fl := ascii (toString r.battle_ended_flag)
  fl_numeral := numeral_toString h.flag.1 h.flag.2

/-- What `printf` makes of a row with this format. -/
def Row.printed (r : Row) : List UInt8 :=
  ascii (toString r.HP) ++ 32 :: (ascii (toString r.ATK) ++ 32 :: (r.attr.name ++
    32 :: idByte r.current_battle_id :: 32 :: (ascii (toString r.battle_ended_flag) ++ [10])))

/-- What is printed can be read back. -/
theorem statusFile_printed (hrows : ∀ r ∈ rows, r.Printable) (start : Blanks) :
    StatusFile rows (start.val ++ rows.flatMap Row.printed) := by
  induction rows generalizing start with
  | nil =>
    have hdrop : (start.val ++ []).dropWhile isSpace = [] :=
      dropWhile_append_stops start.property stops_nil
    rw [List.flatMap_nil]
    exact .tail (by rw [hdrop]; exact stops_nil) (by rw [hdrop]; exact stops_nil)
  | cons r rows ih =>
    have hprintable := hrows r (by simp)
    have hrest := ih (fun r hr => hrows r (by simp [hr])) ⟨[10], List.all_eq_true.mp rfl⟩
    have hfile := StatusFile.row (RowLayout.plain start hprintable) (stops_cons.mpr (by decide))
      hrest
    simpa [RowLayout.text, RowLayout.plain, Blanks.one, Row.printed] using hfile

example : (List.ofFn sampleRows).flatMap Row.printed =
    ascii "7 2 FIRE G 0\n8 3 GRASS G 0\n4 4 FIRE H 0\n1 4 GRASS H 0\n12 2 WATER I 0\n" ++
      ascii "3 4 GRASS I 0\n7 3 WATER J 0\n10 2 WATER J 0\n" := by
  decide +kernel

/-- The rows of `player_status.txt` can be printed. -/
theorem printable_sampleRows : ∀ r ∈ List.ofFn sampleRows, r.Printable := by
  rw [List.forall_mem_ofFn_iff]
  intro i
  constructor <;> revert i <;> decide

/-- The bytes of `player_status.txt`. -/
def sampleFile : List UInt8 := (List.ofFn sampleRows).flatMap Row.printed

/-- Variables in fresh memory. -/
def Scanned.fresh : Scanned := ⟨0, 0, [], 0, 0⟩

/-- The players of `player_status.txt` start with its rows, and its tournament comes to its end. -/
theorem tournament_of_file_sample :
    (∀ i : Fin 8, readRow sampleFile .fresh .FIRE i = sampleRows i) ∧
    ∃ n, ∀ es s,
      runFrom (step (program fun i => readRow sampleFile .fresh .FIRE i)) start es = some s →
      ∃ rest t, runFrom (step (program fun i => readRow sampleFile .fresh .FIRE i)) s rest = some t ∧
        rest.length + es.length = n ∧ t.file .stdout = [.champion (champion sampleRows)] := by
  have hne : List.ofFn sampleRows ≠ [] := by simp
  have hown : (fun i : Fin 8 => ownRow (List.ofFn sampleRows) hne i) = sampleRows :=
    funext (ownRow_ofFn sampleRows hne)
  obtain ⟨hread, hends⟩ := tournament_of_file
    (statusFile_printed printable_sampleRows ⟨[], by simp⟩) hne (fun _ => .fresh) fun _ => .FIRE
  obtain ⟨n, hall⟩ := hends (by rw [hown]; exact valid_sampleRows)
  refine ⟨fun i => (hread i).trans (ownRow_ofFn sampleRows hne i), n, fun es s hes => ?_⟩
  obtain ⟨rest, t, hrest, -, hlength, hstdout⟩ := hall es s hes
  rw [hown] at hstdout
  exact ⟨rest, t, hrest, hlength, hstdout⟩

end SystemProgramming.Championship
