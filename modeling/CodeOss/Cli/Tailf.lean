import Mathlib

/-! `tailf`: the last lines of a file, kept in a ring buffer, and then the lines that are completed
later, read again from where the last complete line ends. -/

namespace CodeOss.Cli

open List List

structure RingBuffer (T : Type) where
  data : List T
  capacity : ℕ
  i : ℕ

namespace RingBuffer

variable {T : Type}

def new (capacity : ℕ) : RingBuffer T := ⟨[], capacity, 0⟩

/-- `none` is a panic: an index out of bounds, or a remainder by zero. -/
def push (b : RingBuffer T) (value : T) : Option (RingBuffer T) := do
  let data ←
    if b.data.length = b.capacity then
      if b.i < b.data.length then some (b.data.set b.i value) else none
    else some (b.data ++ [value])
  if b.capacity = 0 then none
  else some { b with data, i := (b.i + 1) % b.capacity }

/-- An iterator, and what reading an index leaves of the data: all of it, or a default for what was
taken. -/
structure Iter (T : Type) where
  buffer : RingBuffer T
  index : ℕ
  leave : List T → ℕ → List T

def iter (b : RingBuffer T) : Iter T := ⟨b, 0, fun data _ => data⟩

def intoIter [Inhabited T] (b : RingBuffer T) : Iter T := ⟨b, 0, fun data i => data.set i default⟩

/-- A panic, the end, or an item and the iterator behind it. -/
def Iter.next (it : Iter T) : Option (Option (T × Iter T)) :=
  if it.index = it.buffer.data.length then some none
  else if it.buffer.data.length = 0 then none
  else
    let ii := (it.index + it.buffer.i) % it.buffer.data.length
    it.buffer.data[ii]?.map fun item =>
      some (item, { it with
        buffer := { it.buffer with data := it.leave it.buffer.data ii }
        index := it.index + 1 })

/-- The items, or `none` for a panic or if they do not end in time. -/
def Iter.collect : ℕ → Iter T → Option (List T)
  | 0, _ => none
  | fuel + 1, it => do
      match ← it.next with
      | none => some []
      | some (item, it) => (item :: ·) <$> it.collect fuel

end RingBuffer

def lastN {T : Type} (n : ℕ) (values : List T) : List T := values.drop (values.length - n)

namespace RingBuffer

variable {T : Type} {n : ℕ} {values : List T} {b : RingBuffer T} {value : T}

/-- The buffer holds the last values, from `i` on and around. -/
structure Holds (b : RingBuffer T) (n : ℕ) (values : List T) : Prop where
  capacity : b.capacity = n
  length : b.data.length = min values.length n
  i : b.i = values.length % n
  rotate : b.data.rotate b.i = lastN n values

theorem holds_new : Holds (new n : RingBuffer T) n [] :=
  ⟨rfl, by simp [new], by simp [new], by simp [new, lastN]⟩

theorem lastN_of_le (h : values.length ≤ n) : lastN n values = values := by
  rw [lastN, Nat.sub_eq_zero_of_le h, drop_zero]

theorem lastN_concat (h : n ≤ values.length) (hn : n ≠ 0) :
    lastN n (values ++ [value]) = (lastN n values).drop 1 ++ [value] := by
  rw [lastN, lastN, List.drop_drop, length_append, length_singleton,
    drop_append_of_le_length (by omega), show values.length + 1 - n = values.length - n + 1 by
    omega]

theorem push_eq (hpos : b.capacity ≠ 0) (hi : b.i < b.capacity) : b.push value = some { b with
      data := if b.data.length = b.capacity then b.data.set b.i value else b.data ++ [value]
      i := (b.i + 1) % b.capacity } := by
  rw [push]
  by_cases hfull : b.data.length = b.capacity
  · simp [hfull, hi, hpos]
  · simp [hfull, hpos]

theorem Holds.push (h : Holds b n values) (hn : n ≠ 0) (value : T) :
    ∃ b', b.push value = some b' ∧ Holds b' n (values ++ [value]) := by
  obtain ⟨hcapacity, hlength, hi, hrotate⟩ := h
  have hlt : b.i < n := hi ▸ Nat.mod_lt _ (Nat.pos_of_ne_zero hn)
  have hnext : (b.i + 1) % n = (values ++ [value]).length % n := by
    rw [hi, length_append, length_singleton, Nat.mod_add_mod]
  refine ⟨_, push_eq (hcapacity ▸ hn) (hcapacity ▸ hlt), hcapacity, ?_, hcapacity ▸ hnext, ?_⟩
  · rw [length_append, length_singleton]
    dsimp only
    split
    · rw [List.length_set]
      omega
    · rw [length_append, length_singleton]
      omega
  · dsimp only
    rw [hcapacity]
    by_cases hfull : n ≤ values.length
    · -- The oldest value gives way.
      rw [min_eq_right hfull] at hlength
      have hset : b.data.set b.i value = (b.data.take b.i ++ [value]) ++ b.data.drop (b.i + 1) := by
        rw [set_eq_take_append_cons_drop, if_pos (by omega), append_assoc]
        rfl
      have hfront : (b.data.take b.i ++ [value]).length = b.i + 1 := by
        rw [length_append, List.length_take, length_singleton]
        omega
      have hmod := rotate_mod (b.data.set b.i value) (b.i + 1)
      rw [List.length_set, hlength] at hmod
      rw [if_pos hlength, hmod, rotate_eq_drop_append_take (by rw [List.length_set]; omega),
        hset, drop_left' hfront, take_left' hfront, lastN_concat hfull hn, ← hrotate,
        rotate_eq_drop_append_take (by omega),
        drop_append_of_le_length (by rw [List.length_drop]; omega), List.drop_drop,
        append_assoc]
    · -- There is room.
      rw [not_le] at hfull
      rw [min_eq_left hfull.le] at hlength
      rw [if_neg (by omega), lastN_of_le (by rw [length_append, length_singleton]; omega)]
      have hdata : b.data = values := by
        rw [hi, Nat.mod_eq_of_lt hfull, ← hlength, rotate_length, lastN_of_le hfull.le] at hrotate
        exact hrotate
      rw [hdata, hnext]
      rcases Nat.lt_or_ge (values ++ [value]).length n with hlt | hge
      · rw [Nat.mod_eq_of_lt hlt, rotate_length]
      · have heq : (values ++ [value]).length = n := by
          rw [length_append, length_singleton] at hge ⊢
          omega
        rw [heq, Nat.mod_self, rotate_zero]

theorem push_zero (hn : b.capacity = 0) : b.push value = none := by
  rw [push, hn]
  simp

theorem foldlM_push (values : List T) (n : ℕ) :
    if n = 0 ∧ values ≠ [] then values.foldlM RingBuffer.push (new n) = none
    else ∃ b, values.foldlM RingBuffer.push (new n) = some b ∧ Holds b n values := by
  split
  · rename_i hzero
    obtain ⟨rfl, hne⟩ := hzero
    obtain ⟨value, values, rfl⟩ := exists_cons_of_ne_nil hne
    rw [foldlM_cons, push_zero (b := new 0) rfl]
    rfl
  · rename_i hzero
    induction values using reverseRecOn with
    | nil => exact ⟨new n, rfl, holds_new⟩
    | append_singleton values value ih =>
      have hn : n ≠ 0 := fun hn => hzero ⟨hn, by simp⟩
      obtain ⟨b, hfold, hb⟩ := ih fun h => hn h.1
      obtain ⟨b', hpush, hb'⟩ := hb.push hn value
      exact ⟨b', by rw [foldlM_append, hfold]; simpa using hpush, hb'⟩

theorem collect_iter (h : Holds b n values) (leave : List T → ℕ → List T) (hleave :
    ∀ data i, (leave data i).length = data.length ∧ ∀ j, j ≠ i → (leave data i)[j]? = data[j]?) :
    Iter.collect (b.data.length + 1) ⟨b, 0, leave⟩ = some (lastN n values) := by
  -- What is not taken yet is still there.
  have hrun : ∀ (left index : ℕ) (data : List T), data.length = b.data.length →
      index + left = b.data.length →
      (∀ k, index ≤ k → k < b.data.length →
        data[(k + b.i) % b.data.length]? = b.data[(k + b.i) % b.data.length]?) →
      Iter.collect (left + 1) ⟨{ b with data }, index, leave⟩ =
        some ((b.data.rotate b.i).drop index) := by
    intro left
    induction left with
    | zero =>
      intro index data hdata hleft _
      rw [Iter.collect, Iter.next, if_pos (by dsimp only; omega)]
      rw [drop_of_length_le (by rw [length_rotate]; omega)]
      rfl
    | succ left ih =>
      intro index data hdata hleft hsame
      have hlt : index < b.data.length := by omega
      have hii : (index + b.i) % b.data.length < b.data.length := Nat.mod_lt _ (by omega)
      have hitem := hsame index (le_refl _) hlt
      rw [getElem?_eq_getElem hii] at hitem
      obtain ⟨hlength, hother⟩ := hleave data ((index + b.i) % b.data.length)
      have hrest := ih (index + 1) (leave data ((index + b.i) % b.data.length))
        (hlength.trans hdata) (by omega) (fun k hk hklt => by
          rw [hother _ ?_]
          · exact hsame k (by omega) hklt
          · intro heq
            have hmod : k ≡ index [MOD b.data.length] := Nat.ModEq.add_right_cancel' b.i heq
            have := hmod.eq_of_lt_of_lt hklt hlt
            omega)
      have hrotated : (b.data.rotate b.i).drop index =
          b.data[(index + b.i) % b.data.length] :: (b.data.rotate b.i).drop (index + 1) := by
        rw [drop_eq_getElem_cons (by rw [length_rotate]; exact hlt),
          getElem_rotate]
      rw [Iter.collect, Iter.next, if_neg (by dsimp only; omega), if_neg (by dsimp only; omega)]
      simp only [hdata, hitem, Option.map_some, Option.bind_eq_bind, Option.bind_some, hrest,
        Option.map_eq_map, hrotated]
  have hall := hrun b.data.length 0 b.data rfl (by omega) fun _ _ _ => rfl
  rw [drop_zero, h.rotate] at hall
  exact hall

end RingBuffer

def newline : UInt8 := 10

def IsUtf8 (bytes : List UInt8) : Prop := bytes.toByteArray.IsValidUTF8

instance (bytes : List UInt8) : Decidable (IsUtf8 bytes) :=
  inferInstanceAs (Decidable bytes.toByteArray.IsValidUTF8)

/-- `read_line` from an offset on: the bytes up to and including the next newline, or the end. -/
def readLine (observed : List UInt8) (reader : ℕ) : Except Unit (List UInt8) :=
  let rest := observed.drop reader
  let line := rest.takeWhile (· ≠ newline) ++ (rest.dropWhile (· ≠ newline)).take 1
  if IsUtf8 line then .ok line else .error ()

inductive TailEvent where
  | line (line : List UInt8)
  | reset
  | err
deriving DecidableEq

/-- Where the initial lines end and which of them are kept, unless there is an error or a panic. -/
inductive Initial where
  | unfinished
  | panic
  | err
  | ok (pos : ℕ) (initialLines : RingBuffer (List UInt8))

def readInitial (observed : List UInt8) : ℕ → ℕ → ℕ → RingBuffer (List UInt8) → Initial
  | 0, _, _, _ => .unfinished
  | fuel + 1, reader, pos, initialLines =>
    match readLine observed reader with
    | .error _ => .err
    | .ok line =>
      if line = [] ∨ line.getLast? ≠ some newline then .ok pos initialLines
      else
        match initialLines.push line with
        | none => .panic
        | some initialLines =>
          readInitial observed fuel (reader + line.length) (pos + line.length) initialLines

/-- The poll process. It is stopped by an error. -/
structure Tailing where
  pos : ℕ
  lastLen : ℕ
  events : List TailEvent
  stopped : Bool

def readNew (observed : List UInt8) : ℕ → ℕ → Tailing → Option Tailing
  | 0, _, _ => none
  | fuel + 1, reader, t =>
    match readLine observed reader with
    | .error _ => some { t with events := t.events ++ [.err], stopped := true }
    | .ok line =>
      if line = [] ∨ line.getLast? ≠ some newline then some t
      else
        readNew observed fuel (reader + line.length)
          { t with pos := t.pos + line.length, events := t.events ++ [.line line] }

/-- The reader seeks to where the last complete line ended. -/
def poll (file : List UInt8) (t : Tailing) (len : ℕ) : Option Tailing :=
  if t.stopped ∨ len = t.lastLen then some t
  else
    let t := if len < t.lastLen then { t with events := t.events ++ [.reset], pos := 0 } else t
    readNew (file.take len) (len + 1) t.pos { t with lastLen := len }

inductive Outcome where
  | unfinished
  | panic
  | sent (events : List TailEvent)
deriving DecidableEq

/-- The file has the given lengths when it is read at first and polled later. -/
def tailf (n : ℕ) (file : List UInt8) (initial : ℕ) (polls : List ℕ) : Outcome :=
  match readInitial (file.take initial) (initial + 1) 0 0 (.new n) with
  | .unfinished => .unfinished
  | .panic => .panic
  | .err => .sent [.err]
  | .ok pos initialLines =>
    match initialLines.intoIter.collect (initialLines.data.length + 1) with
    | none => .panic
    | some lines =>
      match polls.foldlM (poll file) ⟨pos, initial, lines.map .line, false⟩ with
      | none => .unfinished
      | some t => .sent t.events

def completeLines : List UInt8 → List (List UInt8)
  | [] => []
  | c :: bytes =>
    if c = newline then [c] :: completeLines bytes
    else
      match completeLines bytes with
      | [] => []
      | line :: lines => (c :: line) :: lines

def remainder : List UInt8 → List UInt8
  | [] => []
  | c :: bytes =>
    if c = newline then remainder bytes
    else if completeLines bytes = [] then c :: remainder bytes
    else remainder bytes

def IsLine (line : List UInt8) : Prop := ∃ front, line = front ++ [newline] ∧ newline ∉ front

section Lines

variable {bytes rest line : List UInt8} {lines : List (List UInt8)}

theorem completeLines_line (h : IsLine line) : completeLines (line ++ rest) =
    line :: completeLines rest ∧ remainder (line ++ rest) = remainder rest := by
  obtain ⟨front, rfl, hnot⟩ := h
  induction front with
  | nil => exact ⟨by simp [completeLines], by simp [remainder]⟩
  | cons c front ih =>
    rw [mem_cons, not_or] at hnot
    obtain ⟨hlines, hremainder⟩ := ih hnot.2
    have hc : c ≠ newline := Ne.symm hnot.1
    constructor
    · rw [cons_append, cons_append, completeLines, if_neg hc, hlines]
    · rw [cons_append, cons_append, remainder, if_neg hc, hlines,
        if_neg (cons_ne_nil _ _), hremainder]

theorem completeLines_flatten (h : ∀ line ∈ lines, IsLine line) : completeLines (lines.flatten ++
    rest) = lines ++ completeLines rest ∧ remainder (lines.flatten ++ rest) = remainder rest := by
  induction lines with
  | nil => exact ⟨rfl, rfl⟩
  | cons line lines ih =>
    obtain ⟨hline, hlines⟩ := forall_mem_cons.mp h
    rw [flatten_cons, append_assoc, (completeLines_line hline).1,
      (completeLines_line hline).2, (ih hlines).1, (ih hlines).2]
    exact ⟨rfl, rfl⟩

theorem completeLines_spec (bytes : List UInt8) : (completeLines bytes).flatten ++ remainder bytes =
    bytes ∧ (∀ line ∈ completeLines bytes, IsLine line) ∧ newline ∉ remainder bytes := by
  induction bytes with
  | nil => exact ⟨rfl, fun _ h => (not_mem_nil h).elim, not_mem_nil⟩
  | cons c bytes ih =>
    obtain ⟨hbytes, hlines, hnot⟩ := ih
    rw [completeLines, remainder]
    by_cases hc : c = newline
    · rw [if_pos hc, if_pos hc, flatten_cons, append_assoc, hbytes]
      have hfirst : IsLine [c] := ⟨[], by rw [hc]; rfl, not_mem_nil⟩
      exact ⟨rfl, forall_mem_cons.mpr ⟨hfirst, hlines⟩, hnot⟩
    · rw [if_neg hc, if_neg hc]
      cases hcomplete : completeLines bytes with
      | nil =>
        rw [hcomplete] at hbytes
        rw [if_pos rfl]
        refine ⟨congrArg (c :: ·) hbytes, fun _ h => (not_mem_nil h).elim, ?_⟩
        exact not_mem_cons_of_ne_of_not_mem (Ne.symm hc) hnot
      | cons line lines =>
        rw [hcomplete] at hbytes hlines
        obtain ⟨⟨front, hfront, hin⟩, hrest⟩ := forall_mem_cons.mp hlines
        rw [if_neg (cons_ne_nil _ _)]
        have hlonger : IsLine (c :: line) := ⟨c :: front, by rw [hfront]; rfl,
          not_mem_cons_of_ne_of_not_mem (Ne.symm hc) hin⟩
        exact ⟨congrArg (c :: ·) hbytes, forall_mem_cons.mpr ⟨hlonger, hrest⟩, hnot⟩

end Lines

section Utf8

variable {bytes rest front : List UInt8} {lines : List (List UInt8)} {c : Char}

theorem isUtf8_iff : IsUtf8 bytes ↔ ∃ cs : List Char, bytes = cs.flatMap String.utf8EncodeChar :=
  ⟨fun ⟨cs, h⟩ => ⟨cs, toByteArray_inj.mp h⟩, fun ⟨cs, h⟩ => ⟨cs, congrArg _ h⟩⟩

theorem IsUtf8.append (h : IsUtf8 bytes) (h' : IsUtf8 rest) : IsUtf8 (bytes ++ rest) := by
  rw [IsUtf8, toByteArray_append]
  exact ByteArray.IsValidUTF8.append h h'

theorem isUtf8_nil : IsUtf8 [] := isUtf8_iff.mpr ⟨[], rfl⟩

theorem newline_mem_encode (h : newline ∈ String.utf8EncodeChar c) :
    String.utf8EncodeChar c = [newline] := by
  have hsmall (v : ℕ) (hlow : 128 ≤ v) (hhigh : v < 256) : newline ≠ UInt8.ofNat v := by
    intro heq
    have := congrArg UInt8.toNat heq
    rw [UInt8.toNat_ofNat_of_lt' hhigh] at this
    simp [newline] at this
    omega
  rw [String.utf8EncodeChar] at h ⊢
  split at h
  · rename_i hascii
    rw [if_pos hascii]
    rw [mem_singleton] at h
    rw [h]
  · exfalso
    split at h
    · simp only [mem_cons, not_mem_nil, or_false] at h
      rcases h with h | h
      · exact hsmall _ (by omega) (by omega) h
      · exact hsmall _ (by omega) (by omega) h
    · split at h
      · simp only [mem_cons, not_mem_nil, or_false] at h
        rcases h with h | h | h
        · exact hsmall _ (by omega) (by omega) h
        · exact hsmall _ (by omega) (by omega) h
        · exact hsmall _ (by omega) (by omega) h
      · simp only [mem_cons, not_mem_nil, or_false] at h
        rcases h with h | h | h | h
        · exact hsmall _ (by omega) (by omega) h
        · exact hsmall _ (by omega) (by omega) h
        · exact hsmall _ (by omega) (by omega) h
        · exact hsmall _ (by omega) (by omega) h

theorem IsUtf8.split (h : IsUtf8 (front ++ newline :: rest)) : IsUtf8 front ∧ IsUtf8 rest := by
  obtain ⟨cs, hcs⟩ := isUtf8_iff.mp h
  clear h
  induction cs generalizing front with
  | nil => simp at hcs
  | cons c cs ih =>
    rw [flatMap_cons] at hcs
    have hchar : IsUtf8 (String.utf8EncodeChar c) := isUtf8_iff.mpr ⟨[c], by simp⟩
    rcases append_eq_append_iff.mp hcs with ⟨more, hcode, hrest⟩ | ⟨more, hfront, hrest⟩
    · cases more with
      | nil =>
        rw [append_nil] at hcode
        obtain ⟨-, hrest⟩ := @ih [] hrest
        exact ⟨hcode ▸ hchar, hrest⟩
      | cons b more =>
        -- The newline is in the code of the character.
        obtain ⟨rfl, htail⟩ := List.cons.inj hrest
        have hnewline := newline_mem_encode (hcode ▸ mem_append_right front mem_cons_self)
        rw [hnewline, singleton_eq_append_iff] at hcode
        rcases hcode with ⟨hfront, hmore⟩ | ⟨hfront, hmore⟩
        · obtain ⟨-, hmore⟩ := List.cons.inj hmore
          rw [hfront, htail, hmore]
          exact ⟨isUtf8_nil, isUtf8_iff.mpr ⟨cs, rfl⟩⟩
        · exact nomatch hmore
    · obtain ⟨hmore, hrest⟩ := ih hrest.symm
      exact ⟨hfront ▸ hchar.append hmore, hrest⟩

theorem isUtf8_lines (hlines : ∀ line ∈ lines, IsLine line) (h : IsUtf8 (lines.flatten ++ rest)) :
    (∀ line ∈ lines, IsUtf8 line) ∧ IsUtf8 rest := by
  induction lines with
  | nil => exact ⟨fun _ h => (not_mem_nil h).elim, h⟩
  | cons line lines ih =>
    obtain ⟨⟨front, rfl, -⟩, hmore⟩ := forall_mem_cons.mp hlines
    rw [flatten_cons, append_assoc, append_assoc, singleton_append] at h
    obtain ⟨hfront, hrest⟩ := h.split
    obtain ⟨hall, hrest⟩ := ih hmore hrest
    have hnewline : IsUtf8 [newline] := isUtf8_iff.mpr ⟨['\n'], by decide⟩
    exact ⟨forall_mem_cons.mpr ⟨hfront.append hnewline, hall⟩, hrest⟩

theorem isUtf8_flatten (h : ∀ line ∈ lines, IsUtf8 line) : IsUtf8 lines.flatten := by
  induction lines with
  | nil => exact isUtf8_nil
  | cons line lines ih =>
    obtain ⟨hline, hlines⟩ := forall_mem_cons.mp h
    exact hline.append (ih hlines)

theorem isUtf8_take (h : IsUtf8 bytes) (len : ℕ) : (∀ line ∈ completeLines (bytes.take len),
    IsUtf8 line) ∧ (IsUtf8 (remainder (bytes.take len)) ↔ IsUtf8 (bytes.take len)) := by
  obtain ⟨hsplit, hlines, -⟩ := completeLines_spec (bytes.take len)
  have hall : IsUtf8 ((completeLines (bytes.take len)).flatten ++
      (remainder (bytes.take len) ++ bytes.drop len)) := by
    rw [← append_assoc, hsplit, take_append_drop]
    exact h
  have hvalid := (isUtf8_lines hlines hall).1
  refine ⟨hvalid, fun hrest => ?_, fun htake => ?_⟩
  · rw [← hsplit]
    exact (isUtf8_flatten hvalid).append hrest
  · rw [← hsplit] at htake
    exact (isUtf8_lines hlines htake).2

end Utf8

section Loops

variable {observed rest line : List UInt8} {lines : List (List UInt8)} {reader fuel : ℕ}

theorem takeWhile_dropWhile_line {front : List UInt8} (hnot : newline ∉ front) :
    (front ++ newline :: rest).takeWhile (· ≠ newline) = front ∧
      (front ++ newline :: rest).dropWhile (· ≠ newline) = newline :: rest := by
  have hall : ∀ c ∈ front, (decide (c ≠ newline)) = true := fun c hc =>
    decide_eq_true fun heq => hnot (heq ▸ hc)
  constructor
  · rw [takeWhile_append_of_pos hall, takeWhile_cons_of_neg (by simp), append_nil]
  · rw [dropWhile_append_of_pos hall, dropWhile_cons_of_neg (by simp)]

theorem readLine_line (hline : IsLine line) (hvalid : IsUtf8 line)
    (h : observed.drop reader = line ++ rest) : readLine observed reader = .ok line := by
  obtain ⟨front, rfl, hnot⟩ := hline
  rw [append_assoc, singleton_append] at h
  obtain ⟨htake, hdrop⟩ := @takeWhile_dropWhile_line rest front hnot
  rw [readLine, h, htake, hdrop]
  exact if_pos hvalid

theorem readLine_rest (hnot : newline ∉ rest) (h : observed.drop reader = rest) :
    readLine observed reader = if IsUtf8 rest then .ok rest else .error () := by
  have hall : ∀ c ∈ rest, (decide (c ≠ newline)) = true := fun c hc =>
    decide_eq_true fun heq => hnot (heq ▸ hc)
  rw [readLine, h, takeWhile_eq_self_iff.mpr hall, dropWhile_eq_nil_iff.mpr hall,
    take_nil, append_nil]

theorem IsLine.getLast? (h : IsLine line) : ¬ (line = [] ∨ line.getLast? ≠ some newline) := by
  obtain ⟨front, rfl, -⟩ := h
  simp

theorem rest_getLast? (hnot : newline ∉ rest) : rest = [] ∨ rest.getLast? ≠ some newline := by
  refine .inr fun h => hnot (mem_of_getLast? h)

theorem readInitial_spec {initialLines : RingBuffer (List UInt8)} {pos : ℕ}
    (hlines : ∀ line ∈ lines, IsLine line) (hvalid : ∀ line ∈ lines, IsUtf8 line)
    (hnot : newline ∉ rest) (h : observed.drop reader = lines.flatten ++ rest)
    (hfuel : lines.flatten.length < fuel) :
    readInitial observed fuel reader pos initialLines =
      match lines.foldlM RingBuffer.push initialLines with
      | none => .panic
      | some b => if IsUtf8 rest then .ok (pos + lines.flatten.length) b else .err := by
  obtain ⟨fuel, rfl⟩ := Nat.exists_eq_succ_of_ne_zero (Nat.ne_of_gt (Nat.zero_lt_of_lt hfuel))
  induction lines generalizing fuel reader pos initialLines with
  | nil =>
    rw [readInitial, readLine_rest hnot h]
    by_cases hrest : IsUtf8 rest
    · simp only [hrest, if_true, if_pos (rest_getLast? hnot), foldlM_nil]
      rfl
    · simp only [hrest, if_false, foldlM_nil]
      rfl
  | cons line lines ih =>
    obtain ⟨hline, hlines⟩ := forall_mem_cons.mp hlines
    obtain ⟨hutf8, hvalid⟩ := forall_mem_cons.mp hvalid
    rw [flatten_cons, append_assoc] at h
    rw [flatten_cons, length_append] at hfuel
    have hpos : 0 < line.length := by
      obtain ⟨front, rfl, -⟩ := hline
      simp
    rw [readInitial, readLine_line hline hutf8 h, foldlM_cons]
    simp only [if_neg hline.getLast?]
    cases initialLines.push line with
    | none => rfl
    | some b =>
      obtain ⟨fuel, rfl⟩ := Nat.exists_eq_succ_of_ne_zero (show fuel ≠ 0 by omega)
      dsimp only
      rw [ih hlines hvalid (by rw [← List.drop_drop, h, drop_left]) _ (by omega),
        flatten_cons, length_append, ← Nat.add_assoc]
      rfl

theorem readNew_spec {t : Tailing} (hlines : ∀ line ∈ lines, IsLine line)
    (hvalid : ∀ line ∈ lines, IsUtf8 line) (hnot : newline ∉ rest)
    (h : observed.drop reader = lines.flatten ++ rest) (hfuel : lines.flatten.length < fuel) :
    readNew observed fuel reader t = some (if IsUtf8 rest then
      { t with pos := t.pos + lines.flatten.length, events := t.events ++ lines.map .line }
    else
      { t with
        pos := t.pos + lines.flatten.length
        events := t.events ++ lines.map .line ++ [.err]
        stopped := true }) := by
  obtain ⟨fuel, rfl⟩ := Nat.exists_eq_succ_of_ne_zero (Nat.ne_of_gt (Nat.zero_lt_of_lt hfuel))
  induction lines generalizing fuel reader t with
  | nil =>
    rw [readNew, readLine_rest hnot h]
    by_cases hrest : IsUtf8 rest
    · simp [hrest, if_pos (rest_getLast? hnot)]
    · simp [hrest]
  | cons line lines ih =>
    obtain ⟨hline, hlines⟩ := forall_mem_cons.mp hlines
    obtain ⟨hutf8, hvalid⟩ := forall_mem_cons.mp hvalid
    rw [flatten_cons, append_assoc] at h
    rw [flatten_cons, length_append] at hfuel
    have hpos : 0 < line.length := by
      obtain ⟨front, rfl, -⟩ := hline
      simp
    rw [readNew, readLine_line hline hutf8 h]
    simp only [if_neg hline.getLast?]
    obtain ⟨fuel, rfl⟩ := Nat.exists_eq_succ_of_ne_zero (show fuel ≠ 0 by omega)
    rw [ih hlines hvalid (by rw [← List.drop_drop, h, drop_left]) _ (by omega)]
    simp [Nat.add_assoc]

end Loops

/-- The last lines of those that are complete at first, and then each line that is completed. -/
def expectedLines (n : ℕ) (file : List UInt8) (initial len : ℕ) : List (List UInt8) :=
  lastN n (completeLines (file.take initial)) ++
    (completeLines (file.take len)).drop (completeLines (file.take initial)).length

section Poll

variable {n initial len len' : ℕ} {file : List UInt8} {t : Tailing} {polls : List ℕ}

theorem completeLines_grow (h : len ≤ len') : ∃ lines, completeLines (file.take len') =
    completeLines (file.take len) ++ lines ∧ (file.take len').drop (completeLines
    (file.take len)).flatten.length = lines.flatten ++ remainder (file.take len') := by
  obtain ⟨more, hmore⟩ := take_prefix_take_left (l := file) h
  obtain ⟨hsplit, hlines, -⟩ := completeLines_spec (file.take len)
  rw [← hsplit, append_assoc] at hmore
  obtain ⟨hcomplete, hremainder⟩ :=
    @completeLines_flatten (remainder (file.take len) ++ more) _ hlines
  rw [hmore] at hcomplete hremainder
  refine ⟨_, hcomplete, ?_⟩
  rw [hremainder, (completeLines_spec _).1, ← hmore, drop_left]

/-- The poll process has sent what is complete so far. -/
structure Follows (n : ℕ) (file : List UInt8) (initial : ℕ) (t : Tailing) : Prop where
  stopped : t.stopped = false
  initial_le : initial ≤ t.lastLen
  pos : t.pos = (completeLines (file.take t.lastLen)).flatten.length
  events : t.events = (expectedLines n file initial t.lastLen).map .line

theorem poll_spec (hfile : IsUtf8 file) (h : Follows n file initial t) (hlen : t.lastLen ≤ len)
    (hvalid : IsUtf8 (file.take t.lastLen)) :
    ∃ t', poll file t len = some t' ∧ if IsUtf8 (file.take len) then
      Follows n file initial t' ∧ t'.lastLen = len else t'.stopped = true ∧ .err ∈ t'.events := by
  obtain ⟨hstopped, hinitial, hpos, hevents⟩ := h
  rw [poll, hstopped]
  by_cases heq : len = t.lastLen
  · subst heq
    refine ⟨t, by simp, ?_⟩
    rw [if_pos hvalid]
    exact ⟨⟨hstopped, hinitial, hpos, hevents⟩, rfl⟩
  · obtain ⟨lines, hgrow, hdrop⟩ := @completeLines_grow t.lastLen len file hlen
    obtain ⟨hutf8, hrest⟩ := isUtf8_take hfile len
    obtain ⟨hsplit, hlines, hnot⟩ := completeLines_spec (file.take len)
    rw [if_neg (by simp [heq]), if_neg (by omega)]
    rw [hgrow] at hutf8 hlines
    have hread := @readNew_spec (file.take len) _ lines t.pos (len + 1) { t with lastLen := len }
      (fun line h => hlines line (mem_append_right _ h))
      (fun line h => hutf8 line (mem_append_right _ h)) hnot (by rw [hpos]; exact hdrop) (by
        have := congrArg List.length hsplit
        rw [hgrow, flatten_append, length_append, length_append, List.length_take] at this
        omega)
    refine ⟨_, hread, ?_⟩
    by_cases hlast : IsUtf8 (file.take len)
    · rw [if_pos hlast, if_pos (hrest.mpr hlast)]
      refine ⟨⟨hstopped, by dsimp only; omega, ?_, ?_⟩, rfl⟩
      · dsimp only
        rw [hpos, hgrow, flatten_append, length_append]
      · obtain ⟨old, hold, -⟩ := @completeLines_grow initial t.lastLen file hinitial
        dsimp only
        rw [hevents, ← map_append, expectedLines, expectedLines, hgrow, hold,
          append_assoc, append_assoc, drop_left, drop_left]
    · rw [if_neg hlast, if_neg fun h => hlast (hrest.mp h)]
      exact ⟨rfl, mem_append_right _ (mem_singleton_self _)⟩

theorem foldlM_poll_stopped (h : t.stopped = true) : polls.foldlM (poll file) t = some t := by
  induction polls with
  | nil => rfl
  | cons len polls ih =>
    rw [foldlM_cons, poll, if_pos (.inl h)]
    exact ih

theorem foldlM_poll (hfile : IsUtf8 file) (h : Follows n file initial t)
    (hsorted : (t.lastLen :: polls).Pairwise (· ≤ ·)) (hvalid : IsUtf8 (file.take t.lastLen)) :
    ∃ t', polls.foldlM (poll file) t = some t' ∧
      if ∀ len ∈ polls, IsUtf8 (file.take len) then
        t'.events = (expectedLines n file initial ((t.lastLen :: polls).getLast
          (cons_ne_nil _ _))).map .line
      else .err ∈ t'.events := by
  induction polls generalizing t with
  | nil => exact ⟨t, rfl, by rw [if_pos (by simp)]; exact h.events⟩
  | cons len polls ih =>
    obtain ⟨hle, hrest⟩ := pairwise_cons.mp hsorted
    obtain ⟨t', hpoll, ht'⟩ := poll_spec hfile h (hle len mem_cons_self) hvalid
    rw [foldlM_cons, hpoll]
    by_cases hlen : IsUtf8 (file.take len)
    · rw [if_pos hlen] at ht'
      obtain ⟨hfollows, rfl⟩ := ht'
      obtain ⟨t'', hfold, ht''⟩ := ih hfollows hrest hlen
      refine ⟨t'', hfold, ?_⟩
      rw [getLast_cons_cons]
      simpa [hlen] using ht''
    · rw [if_neg hlen] at ht'
      refine ⟨t', foldlM_poll_stopped ht'.1, ?_⟩
      rw [if_neg fun hall => hlen (hall len mem_cons_self)]
      exact ht'.2

end Poll

section Laws

variable {T : Type} [Inhabited T] {n initial : ℕ} {file : List UInt8} {polls : List ℕ}
  {values : List T}

/-- Both iterators yield the last values. -/
def KeepsLast (n : ℕ) (values : List T) : Prop :=
  ∃ b, values.foldlM RingBuffer.push (.new n) = some b ∧
    b.iter.collect (b.data.length + 1) = some (lastN n values) ∧
    b.intoIter.collect (b.data.length + 1) = some (lastN n values)

def TailsExactly (n : ℕ) (file : List UInt8) (initial : ℕ) (polls : List ℕ) : Prop :=
  tailf n file initial polls = .sent ((expectedLines n file initial
    ((initial :: polls).getLast (cons_ne_nil _ _))).map .line)

theorem collect_intoIter {b : RingBuffer T} (h : b.Holds n values) :
    b.intoIter.collect (b.data.length + 1) = some (lastN n values) :=
  RingBuffer.collect_iter h _ fun data i =>
    ⟨List.length_set, fun j hne => by rw [getElem?_set_ne (Ne.symm hne)]⟩

theorem keepsLast_iff : KeepsLast n values ↔ (n = 0 → values = []) := by
  have hpush := RingBuffer.foldlM_push values n
  split at hpush
  · rename_i hzero
    refine iff_of_false ?_ fun h => hzero.2 (h hzero.1)
    rintro ⟨b, hfold, -⟩
    rw [hpush] at hfold
    exact nomatch hfold
  · rename_i hzero
    obtain ⟨b, hfold, hb⟩ := hpush
    refine iff_of_true ⟨b, hfold, ?_, collect_intoIter hb⟩ fun hn => ?_
    · exact RingBuffer.collect_iter hb _ fun data i => ⟨rfl, fun j _ => rfl⟩
    · exact not_not.mp fun hne => hzero ⟨hn, hne⟩

theorem tailsExactly_iff (hfile : IsUtf8 file) (hsorted : (initial :: polls).Pairwise (· ≤ ·)) :
    TailsExactly n file initial polls ↔ (n = 0 → completeLines (file.take initial) = []) ∧
    ∀ len ∈ initial :: polls, IsUtf8 (file.take len) := by
  obtain ⟨hsplit, hlines, hnot⟩ := completeLines_spec (file.take initial)
  obtain ⟨hutf8, hrest⟩ := isUtf8_take hfile initial
  have hread := @readInitial_spec (file.take initial) _ _ 0 (initial + 1) (.new n) 0 hlines hutf8
    hnot (by rw [drop_zero, hsplit]) (by
      have := congrArg List.length hsplit
      rw [length_append, List.length_take] at this
      omega)
  rw [TailsExactly, tailf, hread, forall_mem_cons]
  have hpush := RingBuffer.foldlM_push (completeLines (file.take initial)) n
  split at hpush
  · rename_i hzero
    rw [hpush]
    exact iff_of_false (fun h => nomatch h) fun h => hzero.2 (h.1 hzero.1)
  · rename_i hzero
    obtain ⟨b, hfold, hb⟩ := hpush
    have hn : n = 0 → completeLines (file.take initial) = [] := fun hn =>
      not_not.mp fun hne => hzero ⟨hn, hne⟩
    rw [hfold]
    by_cases hinitial : IsUtf8 (file.take initial)
    · simp only [if_pos (hrest.mpr hinitial), collect_intoIter hb]
      have hfollows : Follows n file initial
          ⟨0 + (completeLines (file.take initial)).flatten.length, initial,
            (lastN n (completeLines (file.take initial))).map .line, false⟩ :=
        ⟨rfl, le_refl _, Nat.zero_add _, by simp [expectedLines]⟩
      obtain ⟨t', hpolls, ht'⟩ := foldlM_poll hfile hfollows hsorted hinitial
      rw [hpolls]
      dsimp only at ht' ⊢
      by_cases hall : ∀ len ∈ polls, IsUtf8 (file.take len)
      · rw [if_pos hall] at ht'
        exact iff_of_true (congrArg _ ht') ⟨hn, hinitial, hall⟩
      · rw [if_neg hall] at ht'
        refine iff_of_false (fun h => ?_) fun h => hall h.2.2
        rw [Outcome.sent.inj h] at ht'
        simp at ht'
    · simp only [if_neg fun h => hinitial (hrest.mp h)]
      refine iff_of_false (fun h => ?_) fun h => hinitial h.2.1
      have hmem : TailEvent.err ∈ [TailEvent.err] := mem_singleton_self _
      rw [Outcome.sent.inj h] at hmem
      simp at hmem

/-- The ring buffer keeps the last values and the tail sends exactly the lines that are complete,
just if nothing is pushed into a buffer without capacity and the file is never read up to the middle
of a character. -/
theorem tailf_iff (n : ℕ) (values : List T) (file : List UInt8) (initial : ℕ) (polls : List ℕ)
    (hfile : IsUtf8 file) (hsorted : (initial :: polls).Pairwise (· ≤ ·)) :
    KeepsLast n values ∧ TailsExactly n file initial polls ↔
      (n = 0 → values = [] ∧ completeLines (file.take initial) = []) ∧
        ∀ len ∈ initial :: polls, IsUtf8 (file.take len) := by
  rw [keepsLast_iff, tailsExactly_iff hfile hsorted, ← and_assoc, ← imp_and]

end Laws

/-- The first line is complete at first, the second one later. -/
theorem tailf_two_lines : KeepsLast 1 [7] ∧ TailsExactly 1 [97, newline, 98, newline] 2 [3, 4] :=
  (tailf_iff 1 [7] [97, newline, 98, newline] 2 [3, 4] (by decide) (by decide)).mpr
    ⟨(fun h => nomatch h), by decide⟩

/-- A line that is there at first does not fit into a buffer without capacity; and a file is read in
the middle of a character. -/
theorem tailf_fails :
    ¬ KeepsLast 0 [7] ∧ IsUtf8 [97, newline] ∧ ¬ TailsExactly 0 [97, newline] 2 [] ∧
      IsUtf8 [0xC3, 0xA9, newline] ∧ ¬ TailsExactly 1 [0xC3, 0xA9, newline] 0 [1, 3] := by
  refine ⟨?_, by decide, ?_, by decide, ?_⟩
  · rintro ⟨b, h, -⟩
    exact nomatch h
  · rw [TailsExactly]
    decide
  · rw [TailsExactly]
    decide

end CodeOss.Cli
