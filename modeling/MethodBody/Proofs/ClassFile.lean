import MethodBody.Proofs.Formats

/-!
# Reading tables of class files

A reader of class files takes words of two bytes off the front, the high byte first. It takes the
fields of a row in the order in which they are declared, and as many rows of a table as the word in
front of them says. The formats decode what such a reader reads (`Format.IsReadBy`), at every level
of a table of tables. So a reader gets back the tables that were written, and the bytes behind them,
as long as each has no more rows than a word can say (`tables_readBack`).
-/

namespace MethodBody

namespace ClassFile

variable {α : Type}

/-- Takes a value off the front of the bytes, unless they are too few. -/
abbrev Reader (α : Type) := StateT (List UInt8) Option α

/-- A byte. -/
def byte : Reader UInt8
  | [] => none
  | first :: rest => some (first, rest)

/-- A word, the high byte first. -/
def word : Reader UInt16 := do
  let high ← byte
  let low ← byte
  pure (UInt16.ofNat (256 * high.toNat + low.toNat))

/-- A row of an exception table. -/
def handlerRow : Reader HandlerRow := do
  let start ← word
  let stop ← word
  let handler ← word
  let catchType ← word
  pure { start, stop, handler, catchType }

/-- A row of a line number table. -/
def lineRow : Reader LineRow := do
  let start ← word
  let line ← word
  pure { start, line }

/-- A number of rows. -/
def rows (row : Reader α) : Nat → Reader (List α)
  | 0 => pure []
  | count + 1 => do
    let first ← row
    let others ← rows row count
    pure (first :: others)

/-- The number of rows, and the rows. -/
def table (row : Reader α) : Reader (List α) := do
  let count ← word
  rows row count.toNat

/-- The reader gets back every valid value that the format writes, and the bytes behind it. So no
two of them are written alike, and none is written like the front of another. -/
structure ReadsBack (reader : Reader α) (format : Format α) (valid : α → Prop) : Prop where
  /-- The value is read back, and the bytes behind it are left. -/
  restored : ∀ value, valid value → ∀ rest,
    reader.run (format.encode value ++ rest) = some (value, rest)
  /-- Different values are written differently. -/
  injective : ∀ first second, valid first → valid second →
    format.encode first = format.encode second → first = second
  /-- No value is written like the front of another. -/
  prefixFree : ∀ first second, valid first → valid second →
    format.encode first <+: format.encode second → first = second

end ClassFile

namespace Format

variable {α : Type} {format : Format α} {reader : ClassFile.Reader α}

/-- The format decodes what the reader reads. -/
def IsReadBy (format : Format α) (reader : ClassFile.Reader α) : Prop :=
  ∀ bytes, format.decode bytes = reader.run bytes

/-- A word is read. -/
theorem isReadBy_word : word.IsReadBy ClassFile.word := by
  intro bytes
  match bytes with
  | [] | [_] => rfl
  | high :: low :: rest =>
    have value : BigEndian.decode [high, low] = 256 * high.toNat + low.toNat := by
      simp [BigEndian.decode, Nat.mul_comm]
    simp only [word, value]
    rfl

/-- A number of rows is read. -/
theorem isReadBy_rows (isRead : format.IsReadBy reader) (count : Nat) (bytes : List UInt8) :
    decodeRows format count bytes = (ClassFile.rows reader count).run bytes := by
  induction count generalizing bytes with
  | zero => rfl
  | succ count ih =>
    simp only [decodeRows, ClassFile.rows, isRead bytes, ih, StateT.run_bind, StateT.run_pure]

/-- A table is read. -/
theorem isReadBy_table (isRead : format.IsReadBy reader) :
    format.table.IsReadBy (ClassFile.table reader) := by
  intro bytes
  simp only [table, ClassFile.table, isReadBy_word bytes, isReadBy_rows isRead, StateT.run_bind]

end Format

/-- A row of an exception table is read. -/
theorem HandlerRow.isReadBy_format : HandlerRow.format.IsReadBy ClassFile.handlerRow := by
  intro bytes
  simp [HandlerRow.format, ClassFile.handlerRow, Format.map, Format.pair, Format.isReadBy_word _,
    Option.map_eq_bind, Option.bind_assoc, Function.comp_def]

/-- A row of a line number table is read. -/
theorem LineRow.isReadBy_format : LineRow.format.IsReadBy ClassFile.lineRow := by
  intro bytes
  simp [LineRow.format, ClassFile.lineRow, Format.map, Format.pair, Format.isReadBy_word _,
    Option.map_eq_bind, Option.bind_assoc, Function.comp_def]

namespace ClassFile

variable {α : Type} {reader : Reader α} {format : Format α} {valid : α → Prop}

/-- What a reader gets back whatever stands behind it is not written like the front of another. -/
theorem eq_of_isPrefix {encode : α → List UInt8} {first second : α}
    (firstRead : ∀ rest, reader.run (encode first ++ rest) = some (first, rest))
    (secondRead : ∀ rest, reader.run (encode second ++ rest) = some (second, rest))
    (front : encode first <+: encode second) : first = second := by
  obtain ⟨rest, same⟩ := front
  have read := secondRead []
  rw [List.append_nil, ← same, firstRead] at read
  exact congrArg Prod.fst (Option.some.inj read)

/-- A reader gets back what the format decodes, if the format restores every valid value. -/
theorem readsBack_of_restores (isRead : format.IsReadBy reader)
    (restores : ∀ value, valid value → format.Restores value) : ReadsBack reader format valid := by
  have restored (value : α) (holds : valid value) (rest : List UInt8) :
      reader.run (format.encode value ++ rest) = some (value, rest) :=
    (isRead _).symm.trans (restores value holds rest)
  have prefixFree (first second : α) (one : valid first) (two : valid second)
      (front : format.encode first <+: format.encode second) : first = second :=
    eq_of_isPrefix (restored first one) (restored second two) front
  refine ⟨restored, fun first second one two same => ?_, prefixFree⟩
  exact prefixFree first second one two (same ▸ List.prefix_rfl)

/-- A table has no more rows than a word can say, and each of its rows is valid. -/
def IsTable (valid : α → Prop) (rows : List α) : Prop :=
  rows.length ≤ 65535 ∧ ∀ row ∈ rows, valid row

instance {valid : α → Prop} [DecidablePred valid] : DecidablePred (IsTable valid) :=
  fun _ => inferInstanceAs (Decidable (_ ∧ _))

/-- A table of valid rows is restored if the rows are. -/
theorem IsTable.restores (restores : ∀ value, valid value → format.Restores value) {rows : List α}
    (isTable : IsTable valid rows) : format.table.Restores rows :=
  (Format.restores_table_iff fun row member => restores row (isTable.2 row member)).mpr
    (Nat.lt_succ_of_le isTable.1)

/-- Tables of words, of protected ranges and of lines, and tables of tables of words, are read back
from what is written for them, as long as no table has more rows than a word can say. -/
theorem tables_readBack :
    ReadsBack (table word) Format.word.table (IsTable fun _ => True) ∧
      ReadsBack (table handlerRow) HandlerRow.format.table (IsTable fun _ => True) ∧
      ReadsBack (table lineRow) LineRow.format.table (IsTable fun _ => True) ∧
      ReadsBack (table (table word)) Format.word.table.table (IsTable (IsTable fun _ => True)) := by
  have words (rows : List UInt16) (isTable : IsTable (fun _ => True) rows) :
      Format.word.table.Restores rows :=
    isTable.restores fun value _ => Format.restores_word value
  refine ⟨readsBack_of_restores (Format.isReadBy_table Format.isReadBy_word) words, ?_, ?_, ?_⟩
  · exact readsBack_of_restores (Format.isReadBy_table HandlerRow.isReadBy_format)
      fun rows isTable => isTable.restores fun row _ => row.restores
  · exact readsBack_of_restores (Format.isReadBy_table LineRow.isReadBy_format)
      fun rows isTable => isTable.restores fun row _ => row.restores
  · exact readsBack_of_restores (Format.isReadBy_table (Format.isReadBy_table Format.isReadBy_word))
      fun tables isTable => isTable.restores words

/-- A table of two tables, of which one is empty, and a protected range, each with a byte behind
it. -/
theorem tables_readBack_nested :
    (table (table word)).run [0, 2, 0, 2, 0, 1, 2, 3, 0, 0, 9] = some ([[1, 515], []], [9]) ∧
      (table handlerRow).run [0, 1, 0, 0, 0, 16, 1, 2, 0, 7, 9]
        = some ([⟨0, 16, 258, 7⟩], [9]) := by
  obtain ⟨_, ranges, _, nested⟩ := tables_readBack
  exact ⟨nested.restored [[1, 515], []] (by decide) [9],
    ranges.restored [⟨0, 16, 258, 7⟩] (by decide) [9]⟩

end ClassFile

end MethodBody
