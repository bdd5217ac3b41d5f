import MethodBody.MethodCode

/-!
# Reading back what was written

A format restores a value if it reads back what it wrote for the value, whatever bytes follow
(`Format.Restores`). Words, rows of words and tables of rows are all restored, with one exception:
the count in front of a table is a word, so a table that has more rows than a word can say is read
back only up to its count (`readsCounted`).
-/

namespace MethodBody

namespace Format

/-- Decoding what was written for the value returns the value and the bytes behind it. -/
def Restores {α : Type} (format : Format α) (value : α) : Prop :=
  ∀ rest, format.decode (format.encode value ++ rest) = some (value, rest)

variable {α β : Type}

/-- A word is restored. -/
theorem restores_word (value : UInt16) : word.Restores value := by
  intro rest
  have length := BigEndian.length_encode 2 value.toNat
  have decoded := BigEndian.decode_encode 2 value.toNat
  unfold word
  simp only
  -- A list of two bytes is what the reader of a word takes apart.
  match bytes : BigEndian.encode 2 value.toNat, length with
  | [high, low], _ =>
    rw [bytes] at decoded
    simp only [List.cons_append, List.nil_append, decoded, BigEndian.modulus_two]
    rw [Nat.mod_eq_of_lt value.toNat_lt, UInt16.ofNat_toNat]

/-- Two values are restored if each is. -/
theorem Restores.pair {first : Format α} {second : Format β} {value : α × β}
    (left : first.Restores value.1) (right : second.Restores value.2) :
    (first.pair second).Restores value := by
  intro rest
  simp [Format.pair, left _, right _]

/-- A value of another type is restored if the value behind it is. -/
theorem Restores.map {format : Format α} {build : α → β} {fields : β → α} {value : β}
    (restores : format.Restores (fields value)) (inverse : build (fields value) = value) :
    (format.map build fields).Restores value := by
  intro rest
  simp [Format.map, restores _, inverse]

/-- Rows are read back if their number is known. -/
theorem decodeRows_encode {row : Format α} {rows : List α}
    (restores : ∀ value ∈ rows, row.Restores value) (rest : List UInt8) :
    decodeRows row rows.length (rows.flatMap row.encode ++ rest) = some (rows, rest) := by
  induction rows with
  | nil => rfl
  | cons value others ih =>
    have first := restores value List.mem_cons_self
    have later := ih fun other member => restores other (List.mem_cons_of_mem _ member)
    simp [decodeRows, first _, later]

/-- The count in front of a table is the number of its rows, wrapped around in a word. The rows are
read back as far as the count goes, and the others are left. -/
structure ReadsCounted (row : Format α) (rows : List α) : Prop where
  /-- The count, and behind it all rows. -/
  count : ∀ rest, word.decode (row.table.encode rows ++ rest)
    = some (UInt16.ofNat rows.length, rows.flatMap row.encode ++ rest)
  /-- The rows up to the count, and behind them the others. -/
  rows : ∀ rest, row.table.decode (row.table.encode rows ++ rest)
    = some (rows.take (rows.length % 65536),
        (rows.drop (rows.length % 65536)).flatMap row.encode ++ rest)

/-- A table of rows that are restored is read back as far as its count goes. -/
theorem readsCounted {row : Format α} {rows : List α}
    (restores : ∀ value ∈ rows, row.Restores value) : row.ReadsCounted rows := by
  have counts (rest : List UInt8) : word.decode (row.table.encode rows ++ rest)
      = some (UInt16.ofNat rows.length, rows.flatMap row.encode ++ rest) := by
    rw [table, List.append_assoc]
    exact restores_word _ _
  refine ⟨counts, fun rest => ?_⟩
  have split : rows.flatMap row.encode = (rows.take (rows.length % 65536)).flatMap row.encode
      ++ (rows.drop (rows.length % 65536)).flatMap row.encode := by
    rw [← List.flatMap_append, List.take_append_drop]
  have count : (rows.take (rows.length % 65536)).length = rows.length % 65536 := by
    have less := Nat.mod_le rows.length 65536
    simp [less]
  have taken : ∀ value ∈ rows.take (rows.length % 65536), row.Restores value :=
    fun value member => restores value (List.mem_of_mem_take member)
  have counted := decodeRows_encode taken
    ((rows.drop (rows.length % 65536)).flatMap row.encode ++ rest)
  rw [count] at counted
  have wraps : (UInt16.ofNat rows.length).toNat = rows.length % 65536 := UInt16.toNat_ofNat'
  have decodes (bytes : List UInt8) : row.table.decode bytes
      = (word.decode bytes).bind fun read => decodeRows row read.1.toNat read.2 := rfl
  rw [decodes, counts, Option.bind_some]
  simp only [wraps]
  rw [split, List.append_assoc]
  exact counted

/-- A table is restored exactly if its count can say how many rows it has. -/
theorem restores_table_iff {row : Format α} {rows : List α}
    (restores : ∀ value ∈ rows, row.Restores value) :
    row.table.Restores rows ↔ rows.length < 65536 := by
  constructor
  · intro table
    have both := ((readsCounted restores).rows []).symm.trans (table [])
    obtain ⟨taken, _⟩ := Prod.mk.inj (Option.some.inj both)
    have length := congrArg List.length taken
    rw [List.length_take] at length
    omega
  · intro small rest
    rw [(readsCounted restores).rows, Nat.mod_eq_of_lt small]
    simp

end Format

/-- A row of an exception table is restored. -/
theorem HandlerRow.restores (row : HandlerRow) : HandlerRow.format.Restores row :=
  .map (.pair (Format.restores_word _) (.pair (Format.restores_word _)
    (.pair (Format.restores_word _) (Format.restores_word _)))) rfl

/-- A row of a line number table is restored. -/
theorem LineRow.restores (row : LineRow) : LineRow.format.Restores row :=
  .map (.pair (Format.restores_word _) (Format.restores_word _)) rfl

end MethodBody
