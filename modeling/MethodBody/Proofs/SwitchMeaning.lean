import MethodBody.Proofs.Decoding

/-!
# What switches mean to the machine

The machine takes a key from its stack and goes where the switch says. It finds the offset of a key
in a table by counting from the lowest key, and elsewhere by a binary search for the key, which
relies on the order of the keys (`search_eq_some_iff`). Both kinds of switches can be read off the
bytes of the code, with nothing but zeros between the opcode and the operands (`Buffer.switch?`).
-/

namespace MethodBody

/-- The index of a key among those from the first index up to the last, which is left out. The key
in the middle tells in which half to go on. -/
def search (keys : List Int) (key : Int) (first last : Nat) : Option Nat :=
  if first < last then
    let middle := (first + last) / 2
    match keys[middle]? with
    | none => none
    | some found =>
      if key = found then some middle
      else if key < found then search keys key first middle
      else search keys key (middle + 1) last
  else none
termination_by last - first

/-- Increasing keys are in the order of their indices. -/
theorem lt_of_getElem? {keys : List Int} (increasing : keys.Pairwise (· < ·)) {first second : Nat}
    {one two : Int} (isFirst : keys[first]? = some one) (isSecond : keys[second]? = some two)
    (before : first < second) : one < two := by
  obtain ⟨inside, rfl⟩ := List.getElem?_eq_some_iff.mp isFirst
  obtain ⟨insideToo, rfl⟩ := List.getElem?_eq_some_iff.mp isSecond
  exact List.pairwise_iff_getElem.mp increasing first second inside insideToo before

/-- A binary search among increasing keys finds the key if it is there, and nothing else. -/
theorem search_eq_some_iff {keys : List Int} (increasing : keys.Pairwise (· < ·)) {key : Int}
    {first last index : Nat} (inside : last ≤ keys.length) :
    search keys key first last = some index ↔
      first ≤ index ∧ index < last ∧ keys[index]? = some key := by
  -- The key can only be in the half that the search goes on with.
  fun_induction search keys key first last with
  | case1 first last before middle missing =>
    rw [List.getElem?_eq_none_iff] at missing
    omega
  | case2 first last before middle found =>
    constructor
    · intro same
      obtain rfl := Option.some.inj same
      exact ⟨by omega, by omega, found⟩
    · rintro ⟨-, -, here⟩
      apply congrArg some
      rcases Nat.lt_trichotomy middle index with ahead | same | behind
      · exact absurd (lt_of_getElem? increasing found here ahead) (Int.lt_irrefl _)
      · exact same
      · exact absurd (lt_of_getElem? increasing here found behind) (Int.lt_irrefl _)
  | case3 first last before middle other found different less ih =>
    rw [ih (by omega)]
    refine and_congr_right fun _ => and_congr_left fun here => ?_
    constructor
    · omega
    · intro _
      by_contra ahead
      rcases Nat.lt_or_eq_of_le (Nat.le_of_not_lt ahead) with further | rfl
      · have greater := lt_of_getElem? increasing found here further
        omega
      · exact different (Option.some.inj (here.symm.trans found))
  | case4 first last before middle other found different notLess ih =>
    rw [ih inside]
    constructor
    · rintro ⟨ahead, within, here⟩
      exact ⟨by omega, within, here⟩
    · rintro ⟨-, within, here⟩
      refine ⟨?_, within, here⟩
      by_contra behind
      rcases Nat.lt_or_eq_of_le (Nat.le_of_lt_succ (Nat.lt_of_not_le behind)) with further | rfl
      · have less := lt_of_getElem? increasing here found further
        omega
      · exact different (Option.some.inj (here.symm.trans found))
  | case5 first last done =>
    simp only [reduceCtorEq, false_iff]
    omega

/-- A switch as the machine reads it. The offsets are those that control can be transferred to. -/
inductive Switch where
  /-- One offset for each key from the lowest to the highest, and one for all other keys. -/
  | table (low high fallback : Int) (targets : List Int)
  /-- One offset for each of the keys in the rows, and one for all other keys. -/
  | lookup (fallback : Int) (rows : List (Int × Int))
deriving DecidableEq, Repr

namespace Switch

/-- The offset that control is transferred to, given the key. -/
def land? : Switch → Int → Option Int
  | table low high fallback targets, key =>
    if low ≤ key ∧ key ≤ high then targets[(key - low).toNat]? else some fallback
  | lookup fallback rows, key =>
    match search (rows.map (·.1)) key 0 rows.length with
    | some index => (rows[index]?).map (·.2)
    | none => some fallback

/-- The keys that a switch is to be searched for are in increasing order. -/
def Increasing : Switch → Prop
  | table .. => True
  | lookup _ rows => (rows.map (·.1)).Pairwise (· < ·)

variable {fallback key : Int} {rows : List (Int × Int)}

/-- Control goes where the row of the key says. -/
theorem land?_of_mem {target : Int} (increasing : (lookup fallback rows).Increasing)
    (row : (key, target) ∈ rows) : (lookup fallback rows).land? key = some target := by
  obtain ⟨index, here⟩ := List.mem_iff_getElem?.mp row
  have within : index < rows.length := (List.getElem?_eq_some_iff.mp here).1
  have found : search (rows.map (·.1)) key 0 rows.length = some index := by
    apply (search_eq_some_iff increasing (by simp)).mpr
    exact ⟨Nat.zero_le _, within, by simp [here]⟩
  simp [land?, found, here]

/-- Control goes to the fallback if there is no row for the key. -/
theorem land?_of_not_mem (increasing : (lookup fallback rows).Increasing)
    (missing : key ∉ rows.map (·.1)) : (lookup fallback rows).land? key = some fallback := by
  have none : search (rows.map (·.1)) key 0 rows.length = none := by
    rw [Option.eq_none_iff_forall_not_mem]
    intro index found
    have here := ((search_eq_some_iff increasing (by simp)).mp found).2.2
    exact missing (List.mem_of_getElem? here)
  simp [land?, none]

end Switch

namespace Buffer

variable (code : Buffer)

/-- A switch over consecutive keys, whose operands start at the given offset, and the offset behind
it. -/
def table? (source first : Nat) : Option (Switch × Nat) :=
  (code.signed? first 4).bind fun fallback =>
    (code.signed? (first + 4) 4).bind fun low =>
      (code.signed? (first + 8) 4).bind fun high =>
        let count := (high - low + 1).toNat
        (code.words? 4 (first + 12) count).map fun distances =>
          (.table low high (source + fallback) (distances.map fun distance => source + distance),
            first + 12 + 4 * count)

/-- A switch over any keys, whose operands start at the given offset, and the offset behind it. -/
def lookup? (source first : Nat) : Option (Switch × Nat) :=
  (code.signed? first 4).bind fun fallback =>
    (code.signed? (first + 4) 4).bind fun count =>
      (code.words? 8 (first + 8) count.toNat).bind fun keys =>
        (code.words? 8 (first + 12) count.toNat).map fun distances =>
          (.lookup (source + fallback) (keys.zip (distances.map fun distance => source + distance)),
            first + 8 + 8 * count.toNat)

/-- The switch at an offset, and the offset behind it. Zeros fill the bytes up to the operands,
which start at the next multiple of four. -/
def switch? (offset : Nat) : Option (Switch × Nat) :=
  let padding := padding 4 (offset + 1)
  if code.slice? (offset + 1) padding = some (List.replicate padding 0) then
    (code.byte? offset).bind fun (opcode : Opcode) =>
      if opcode = Opcode.tableSwitch then code.table? offset (offset + 1 + padding)
      else if opcode = Opcode.lookupSwitch then code.lookup? offset (offset + 1 + padding)
      else none
  else none

variable {code} {offset? : Label → Option Nat} {offset : Nat} {rest : List Piece}

/-- Nothing but zeros stands between the opcode of a switch and its operands. -/
theorem slice?_switchHead {opcode : Opcode}
    (stand : Piece.StandAt offset? code offset
      (.literal (Instruction.switchHead opcode offset) :: rest)) :
    code.slice? (offset + 1) (padding 4 (offset + 1))
      = some (List.replicate (padding 4 (offset + 1)) 0) := by
  obtain ⟨front, back, split, rfl, _⟩ := stand.head
  have behind : code.toList = (front ++ [opcode])
      ++ List.replicate (padding 4 (front.length + 1)) 0 ++ back := by
    rw [split, Piece.text, Instruction.switchHead]
    simp
  have stretch := slice?_of_split behind
  rw [List.length_append, List.length_singleton, List.length_replicate] at stretch
  exact stretch

/-- The keys in the rows of a switch are those of its cases. -/
theorem words?_keys {source : Nat} {cases : List Case}
    (stand : Piece.StandAt offset? code offset (cases.flatMap fun one =>
      [.literal (BigEndian.encodeSigned 4 one.key.toInt), .distance source one.target])) :
    code.words? 8 offset cases.length = some (cases.map fun one => one.key.toInt) := by
  induction cases generalizing offset with
  | nil => rfl
  | cons one rest ih =>
    have first := stand.signed?_word (fitsSigned_toInt one.key)
    have others := stand.tail.tail
    rw [Piece.size, Piece.size, BigEndian.length_encodeSigned, Nat.add_assoc] at others
    have keys := ih others
    rw [List.length_cons, words?, first, Option.bind_some, List.map_cons]
    exact congrArg (Option.map _) keys

/-- The distance from a switch to a label leads to the offset of the label. -/
theorem add_address_sub (source : Nat) (label : Label) :
    (source : Int) + (address offset? label - source) = address offset? label := by
  omega

/-- A switch over consecutive keys is read with the offsets of its labels, if there is one for each
key. -/
theorem switch?_of_tableSwitch {low high : Int32} {fallback : Label} {targets : List Label}
    (stand : Piece.StandAt offset? code offset
      ((Instruction.tableSwitch low high fallback targets).pieces offset))
    (whole : (targets.length : Int) = high.toInt - low.toInt + 1)
    (placed : AllPlaced offset? (fallback :: targets)) (near : offset < 0x8000000000000000) :
    code.switch? offset = some
      (.table low.toInt high.toInt (address offset? fallback) (targets.map (address offset?)),
        offset + Piece.totalSize
          ((Instruction.tableSwitch low high fallback targets).pieces offset)) := by
  have first := stand.first?
  have zeros := slice?_switchHead stand
  obtain ⟨fallbackWord, lowWord, highWord, words⟩ := reads_table stand placed near
  have count : (high.toInt - low.toInt + 1).toNat = targets.length := by omega
  have stop : offset + 1 + padding 4 (offset + 1) + 12 + 4 * targets.length
      = offset + Piece.totalSize
          ((Instruction.tableSwitch low high fallback targets).pieces offset) := by
    have head := size_switchHead Opcode.tableSwitch offset
    have table := Listed.totalSize_table offset targets
    simp only [Instruction.pieces, Piece.totalSize_cons, table, ← Nat.add_assoc, head]
    simp only [Piece.size, Width.size, BigEndian.length_encodeSigned]
  rw [switch?, if_pos zeros, first, Option.bind_some, if_pos rfl, table?,
    fallbackWord, Option.bind_some, lowWord, Option.bind_some, highWord, Option.bind_some]
  simp only [count]
  rw [words, Option.map_some, map_address, add_address_sub, stop]

/-- A switch over any keys is read with its keys and the offsets of its labels. -/
theorem switch?_of_lookupSwitch {fallback : Label} {cases : List Case}
    (stand : Piece.StandAt offset? code offset
      ((Instruction.lookupSwitch fallback cases).pieces offset))
    (short : cases.length < 0x80000000)
    (placed : AllPlaced offset? (fallback :: cases.map (·.target)))
    (near : offset < 0x8000000000000000) :
    code.switch? offset = some
      (.lookup (address offset? fallback)
          (cases.map fun one => (one.key.toInt, address offset? one.target)),
        offset + Piece.totalSize ((Instruction.lookupSwitch fallback cases).pieces offset)) := by
  have first := stand.first?
  have zeros := slice?_switchHead stand
  obtain ⟨fallbackWord, countWord, words⟩ := reads_lookup stand short placed near
  have keys : code.words? 8 (offset + 1 + padding 4 (offset + 1) + 8) cases.length
      = some (cases.map fun one => one.key.toInt) := by
    have rows := stand.tail.tail.tail
    rw [size_switchHead] at rows
    simp only [Piece.size, Width.size, BigEndian.length_encodeSigned, Nat.add_assoc,
      Nat.reduceAdd] at rows
    simp only [Nat.add_assoc]
    exact words?_keys rows
  have stop : offset + 1 + padding 4 (offset + 1) + 8 + 8 * cases.length
      = offset + Piece.totalSize ((Instruction.lookupSwitch fallback cases).pieces offset) := by
    have head := size_switchHead Opcode.lookupSwitch offset
    have table := Listed.totalSize_cases offset cases
    simp only [Instruction.pieces, Piece.totalSize_cons, table, ← Nat.add_assoc, head]
    simp only [Piece.size, Width.size, BigEndian.length_encodeSigned]
  have other : Opcode.lookupSwitch ≠ Opcode.tableSwitch := by decide
  have rows : (cases.map fun one => one.key.toInt).zip
      ((cases.map (·.target)).map (address offset?))
        = cases.map fun one => (one.key.toInt, address offset? one.target) := by
    rw [List.map_map, List.zip_map']
    rfl
  rw [switch?, if_pos zeros, first, Option.bind_some, if_neg other, if_pos rfl,
    lookup?, fallbackWord, Option.bind_some, countWord, Option.bind_some, Int.toNat_natCast, keys,
    Option.bind_some, words, Option.map_some, map_address, add_address_sub, stop, rows]

end Buffer

end MethodBody
