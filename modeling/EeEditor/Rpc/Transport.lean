import EeEditor.Orchestrator.Text
import EeEditor.Tree.Slices
import Mathlib.Data.List.DropRight

/-!
# Framed messages

The model of the two framings of `xi-rpc/src/transport.rs`. A reader stands before the bytes that
are left of its input. Every call is given an empty buffer, as by `MessageReader::next`, for which a
length of zero is the end of the input.
-/

namespace EeEditor.Rpc

open BTree (bytes fromUtf8)
open Orchestrator (isWhitespace)

/-- The errors of a reader, by what they report. -/
inductive ReadFailure where
  /-- Of `read_line`. -/
  | lineNotUtf8
  | invalidHeader (header : List Char)
  /-- Of `read_exact`. -/
  | unexpectedEof
  | bodyNotUtf8

/-- What a call gives: the number of bytes and the text. -/
abbrev ReadResult := Except ReadFailure (ℕ × List Char)

/-- The bytes up to a newline and with it, and what follows. -/
def splitLine : List UInt8 → List UInt8 × List UInt8
  | [] => ([], [])
  | b :: input =>
    if b = 10 then ([b], input)
    else
      let (line, rest) := splitLine input
      (b :: line, rest)

/-- `BufRead::read_line`. -/
def readLine (input : List UInt8) : ReadResult × List UInt8 :=
  let (line, rest) := splitLine input
  match fromUtf8 line with
  | none => (.error .lineNotUtf8, rest)
  | some text => (.ok (line.length, text), rest)

/-- `Read::read_exact`. -/
def readExact (length : ℕ) (input : List UInt8) : Except ReadFailure (List UInt8) × List UInt8 :=
  if length ≤ input.length then (.ok (input.take length), input.drop length)
  else (.error .unexpectedEof, [])

/-! ## Newlines -/

namespace NewlineReader

def readMessage (input : List UInt8) : ReadResult × List UInt8 := readLine input

end NewlineReader

namespace NewlineWriter

def writeMessage (output data : List UInt8) : List UInt8 := output ++ (data ++ [10])

end NewlineWriter

/-! ## Lengths -/

/-- `str::parse::<usize>`. -/
def parseUsize (text : List Char) : Option ℕ :=
  let digits := if text.head? = some '+' then text.tail else text
  if digits = [] || digits.any (!·.isDigit) then none
  else
    let n := Nat.ofDigitChars 10 digits 0
    if n < 2 ^ 64 then some n else none

def trimEnd (text : List Char) : List Char := text.rdropWhile isWhitespace

def headerName : List Char := "Content-Length: ".toList

def stripPrefix (first text : List Char) : Option (List Char) :=
  if first.isPrefixOf text then some (text.drop first.length) else none

namespace ContentLengthReader

/-- What follows the header: the separator and the body. -/
def readBody (length : ℕ) (input : List UInt8) : ReadResult × List UInt8 :=
  match readLine input with
  | (.error e, rest) => (.error e, rest)
  | (.ok _, rest) =>
    match readExact length rest with
    | (.error e, rest) => (.error e, rest)
    | (.ok body, rest) =>
      match fromUtf8 body with
      | none => (.error .bodyNotUtf8, rest)
      | some s => (.ok (length, s), rest)

def readMessage (input : List UInt8) : ReadResult × List UInt8 :=
  match readLine input with
  | (.error e, rest) => (.error e, rest)
  | (.ok (n, header), rest) =>
    if n = 0 then (.ok (0, []), rest)
    else
      match (stripPrefix headerName (trimEnd header)).bind parseUsize with
      | none => (.error (.invalidHeader (trimEnd header)), rest)
      | some length => readBody length rest

end ContentLengthReader

namespace ContentLengthWriter

/-- The header, with the blank line. -/
def header (length : ℕ) : List Char :=
  headerName ++ (Nat.toDigits 10 length ++ ['\r', '\n', '\r', '\n'])

def writeMessage (output data : List UInt8) : List UInt8 :=
  output ++ bytes (header data.length) ++ data

end ContentLengthWriter

/-! ## What framing is for -/

/-- A text in memory: its length is a `usize`. -/
structure Message where
  text : List Char
  length_lt : (bytes text).length < 2 ^ 64

inductive Framing where
  | contentLength
  | newline

namespace Framing

def writeMessage : Framing → List UInt8 → List UInt8 → List UInt8
  | contentLength => ContentLengthWriter.writeMessage
  | newline => NewlineWriter.writeMessage

def readMessage : Framing → List UInt8 → ReadResult × List UInt8
  | contentLength => ContentLengthReader.readMessage
  | newline => NewlineReader.readMessage

/-- What the messages are written to. -/
def written (framing : Framing) (messages : List Message) : List UInt8 :=
  messages.foldl (fun output message ↦ framing.writeMessage output (bytes message.text)) []

/-- The text that is read for a message. -/
def delivered : Framing → Message → List Char
  | contentLength, message => message.text
  | newline, message => message.text ++ ['\n']

def result (framing : Framing) (message : Message) : ReadResult :=
  .ok ((bytes (framing.delivered message)).length, framing.delivered message)

end Framing

def endOfInput : ReadResult := .ok (0, [])

/-- The results of a number of calls. -/
def calls {ρ : Type} (read : List UInt8 → ρ × List UInt8) : ℕ → List UInt8 → List ρ × List UInt8
  | 0, input => ([], input)
  | n + 1, input =>
    let (result, input) := read input
    let (results, input) := calls read n input
    (result :: results, input)

/-- Of the bytes that are written only the first `k` arrive. -/
structure Faithful (framing : Framing) (messages : List Message) (k : ℕ) : Prop where
  /-- All messages are read, then the end. -/
  whole : k = (framing.written messages).length →
    calls framing.readMessage (messages.length + 1) (framing.written messages) =
        (messages.map framing.result ++ [endOfInput], []) ∧
      ∀ message ∈ messages, framing.result message ≠ endOfInput
  /-- Some of the first messages are read, then the end or an error. -/
  part : k < (framing.written messages).length → ∃ i ≤ messages.length, ∃ last,
    calls framing.readMessage (i + 1) ((framing.written messages).take k) =
        ((messages.take i).map framing.result ++ [last], []) ∧
      (last = endOfInput ∨ ∃ e, last = .error e)

/-- Where the condition fails, a message is empty, or the bytes end within one. -/
def Arrives (framing : Framing) (messages : List Message) (k : ℕ) : Prop :=
  match framing with
  | .contentLength =>
    k = (framing.written messages).length → ∀ message ∈ messages, message.text ≠ []
  | .newline =>
    k = 0 ∨ ((framing.written messages).take k).getLast? = some 10 ∨
      ¬ IsUtf8 ((framing.written messages).take k)

/-! ## Calls -/

section calls

variable {μ ρ : Type} {read : List UInt8 → ρ × List UInt8} {frame : μ → List UInt8}
  {result : μ → ρ} {ms : List μ}

/-- Whole frames are read one by one. -/
theorem calls_append (hread : ∀ m ∈ ms, ∀ rest, read (frame m ++ rest) = (result m, rest)) (n : ℕ)
    (rest : List UInt8) :
    calls read (ms.length + n) (ms.flatMap frame ++ rest) =
      (ms.map result ++ (calls read n rest).1, (calls read n rest).2) := by
  induction ms with
  | nil => rw [List.length_nil, Nat.zero_add]; rfl
  | cons m ms ih =>
    obtain ⟨hm, hms⟩ := List.forall_mem_cons.mp hread
    rw [List.length_cons, Nat.add_right_comm, calls, List.flatMap_cons, List.append_assoc, hm]
    dsimp only
    rw [ih hms]
    rfl

/-- A result is the same in however many calls. -/
theorem getElem?_calls {n j : ℕ} (hj : j < n) (input : List UInt8) :
    (calls read n input).1[j]? = (calls read (j + 1) input).1[j]? := by
  induction j generalizing n input with
  | zero =>
    obtain ⟨n, rfl⟩ := Nat.exists_eq_succ_of_ne_zero hj.ne'
    rfl
  | succ j ih =>
    obtain ⟨n, rfl⟩ := Nat.exists_eq_succ_of_ne_zero (Nat.ne_zero_of_lt hj)
    exact ih (Nat.lt_of_succ_lt_succ hj) _

theorem getElem?_take_append {i j : ℕ} (hi : i ≤ ms.length) (hj : j ≤ i) (last : ρ) :
    ((ms.take i).map result ++ [last])[j]? =
      if j < i then ms[j]?.map result else some last := by
  have hlength : ((ms.take i).map result).length = i := by
    rw [List.length_map, List.length_take, Nat.min_eq_left hi]
  split_ifs with hlt
  · rw [List.getElem?_append_left (by rwa [hlength]), List.getElem?_map,
      List.getElem?_take_of_lt hlt]
  · obtain rfl := Nat.le_antisymm hj (Nat.not_lt.mp hlt)
    rw [List.getElem?_append_right hlength.le, hlength, Nat.sub_self]
    rfl

/-- A part of the frames is some whole frames and a part of the next one. -/
theorem exists_take_flatMap {k : ℕ} (hk : k < (ms.flatMap frame).length) :
    ∃ i, ∃ hi : i < ms.length, ∃ q, (ms.flatMap frame).take k = (ms.take i).flatMap frame ++ q ∧
      q <+: frame ms[i] ∧ q.length < (frame ms[i]).length := by
  induction ms generalizing k with
  | nil => exact absurd hk (Nat.not_lt_zero k)
  | cons m ms ih =>
    rw [List.flatMap_cons] at hk ⊢
    rcases Nat.lt_or_ge k (frame m).length with hlt | hge
    · refine ⟨0, Nat.succ_pos _, (frame m).take k, ?_, List.take_prefix k _, ?_⟩
      · rw [List.take_append_of_le_length hlt.le]
        rfl
      · rw [List.length_take, Nat.min_eq_left hlt.le]
        exact hlt
    · obtain ⟨j, rfl⟩ := Nat.exists_eq_add_of_le hge
      rw [List.length_append] at hk
      obtain ⟨i, hi, q, htake, hpref, hlt⟩ := ih (k := j) (by omega)
      refine ⟨i + 1, Nat.succ_lt_succ hi, q, ?_, hpref, hlt⟩
      rw [List.take_length_add_append, htake, List.take_succ_cons, List.flatMap_cons,
        List.append_assoc]

end calls

/-! ## Lines -/

variable {line rest q : List UInt8} {s : List Char}

theorem splitLine_append (hline : 10 ∉ line) (rest : List UInt8) :
    splitLine (line ++ 10 :: rest) = (line ++ [10], rest) := by
  induction line with
  | nil => exact if_pos rfl
  | cons b line ih =>
    rw [List.mem_cons, not_or] at hline
    rw [List.cons_append, splitLine, if_neg (Ne.symm hline.1), ih hline.2]
    rfl

theorem splitLine_line (hline : 10 ∉ line) : splitLine line = (line, []) := by
  induction line with
  | nil => rfl
  | cons b line ih =>
    rw [List.mem_cons, not_or] at hline
    rw [splitLine, if_neg (Ne.symm hline.1), ih hline.2]

theorem newline_notMem_bytes (h : '\n' ∉ s) : 10 ∉ bytes s := by
  intro hmem
  obtain ⟨c, hc, hbyte⟩ := List.mem_flatMap.mp hmem
  rcases Nat.lt_or_ge c.toNat 128 with hascii | hlarge
  · obtain ⟨b, hb, hcode⟩ := encode_ascii hascii
    rw [hb] at hbyte
    obtain rfl := List.mem_singleton.mp hbyte
    have hnewline : '\n'.toNat = c.toNat := hcode
    rw [← Char.toNat_inj.mp hnewline] at hc
    exact h hc
  · exact absurd (ge_of_mem_encode hlarge hbyte) (by decide)

theorem bytes_line (s : List Char) : bytes (s ++ ['\n']) = bytes s ++ [10] :=
  BTree.bytes_append s _

theorem readLine_append (h : '\n' ∉ s) (rest : List UInt8) :
    readLine (bytes s ++ 10 :: rest) =
      (.ok ((bytes (s ++ ['\n'])).length, s ++ ['\n']), rest) := by
  rw [readLine, splitLine_append (newline_notMem_bytes h), ← bytes_line]
  dsimp only
  rw [BTree.fromUtf8_bytes]

/-- At the end of the input there need be no newline. -/
theorem readLine_line (h : 10 ∉ q) : (readLine q).2 = [] := by
  rw [readLine, splitLine_line h]
  dsimp only
  split <;> rfl

theorem readLine_nil : readLine [] = (endOfInput, []) := by
  have hnil : fromUtf8 [] = some [] := BTree.fromUtf8_bytes []
  rw [readLine, splitLine]
  dsimp only
  rw [hnil]
  rfl

/-! ## Headers -/

theorem isWhitespace_of_isDigit {c : Char} (h : c.isDigit = true) : isWhitespace c = false := by
  have hrange : 48 ≤ c.toNat ∧ c.toNat ≤ 57 := by
    rw [Char.isDigit, Bool.and_eq_true, decide_eq_true_iff, decide_eq_true_iff] at h
    exact ⟨h.1, h.2⟩
  simp only [isWhitespace, Bool.or_eq_false_iff, Bool.and_eq_false_iff, decide_eq_false_iff_not]
  omega

theorem parseUsize_toDigits {n : ℕ} (hn : n < 2 ^ 64) :
    parseUsize (Nat.toDigits 10 n) = some n := by
  have hdigits : ∀ c ∈ Nat.toDigits 10 n, c.isDigit = true := fun c hc ↦
    Nat.isDigit_of_mem_toDigits (by decide) (by decide) hc
  have hsign : (Nat.toDigits 10 n).head? ≠ some '+' := fun h ↦
    absurd (hdigits '+' (List.mem_of_mem_head? h)) (by decide)
  have hvalid : ¬ (Nat.toDigits 10 n = [] || (Nat.toDigits 10 n).any (!·.isDigit)) = true := by
    rw [Bool.or_eq_true, decide_eq_true_iff, List.any_eq_true]
    rintro (hnil | ⟨c, hc, hnot⟩)
    · exact Nat.toDigits_ne_nil hnil
    · rw [hdigits c hc] at hnot
      cases hnot
  rw [parseUsize, if_neg hsign]
  dsimp only
  rw [if_neg hvalid, Nat.ofDigitChars_ten_toDigits, if_pos hn]

theorem trimEnd_header (n : ℕ) : trimEnd (headerName ++ Nat.toDigits 10 n ++ ['\r', '\n']) =
    headerName ++ Nat.toDigits 10 n := by
  rw [trimEnd, List.append_cons _ '\r', List.rdropWhile_concat_pos _ _ _ (by decide),
    List.rdropWhile_concat_pos _ _ _ (by decide), List.rdropWhile_eq_self_iff]
  intro hne hlast
  have hdigits : Nat.toDigits 10 n ≠ [] := Nat.toDigits_ne_nil
  rw [List.getLast_append_of_ne_nil hne hdigits] at hlast
  have hdigit := Nat.isDigit_of_mem_toDigits (by decide) (by decide) (List.getLast_mem hdigits)
  rw [isWhitespace_of_isDigit hdigit] at hlast
  cases hlast

theorem stripPrefix_append (first text : List Char) :
    stripPrefix first (first ++ text) = some text := by
  rw [stripPrefix, if_pos (List.isPrefixOf_iff_prefix.mpr (List.prefix_append _ _)),
    List.drop_left]

/-- Neither a header nor its digits have a newline. -/
theorem newline_notMem_header (n : ℕ) : '\n' ∉ headerName ++ Nat.toDigits 10 n ++ ['\r'] := by
  rw [List.mem_append, List.mem_append, not_or, not_or]
  refine ⟨⟨by decide, fun hmem ↦ ?_⟩, by decide⟩
  exact absurd (Nat.isDigit_of_mem_toDigits (by decide) (by decide) hmem) (by decide)

namespace ContentLengthReader

/-- The first line of a header is read. -/
theorem readMessage_header {n : ℕ} (hn : n < 2 ^ 64) (rest : List UInt8) :
    readMessage (bytes (headerName ++ Nat.toDigits 10 n ++ ['\r']) ++ 10 :: rest) =
      readBody n rest := by
  have hlength : (bytes (headerName ++ Nat.toDigits 10 n ++ ['\r'] ++ ['\n'])).length ≠ 0 := by
    rw [bytes_line, List.length_append]
    exact Nat.succ_ne_zero _
  rw [readMessage, readLine_append (newline_notMem_header n)]
  dsimp only
  rw [if_neg hlength, List.append_assoc _ ['\r'], List.singleton_append, trimEnd_header,
    stripPrefix_append, Option.bind_some, parseUsize_toDigits hn]

theorem bytes_header (n : ℕ) : bytes (ContentLengthWriter.header n) =
    bytes (headerName ++ Nat.toDigits 10 n ++ ['\r']) ++ 10 :: (bytes ['\r'] ++ [10]) := by
  have hheader : ContentLengthWriter.header n =
      (headerName ++ Nat.toDigits 10 n ++ ['\r']) ++ ['\n'] ++ ['\r'] ++ ['\n'] := by
    rw [ContentLengthWriter.header]
    simp
  rw [hheader, bytes_line, BTree.bytes_append, bytes_line, List.append_assoc, List.append_assoc,
    List.singleton_append]

theorem readMessage_append {n : ℕ} (hn : n < 2 ^ 64) (rest : List UInt8) :
    readMessage (bytes (ContentLengthWriter.header n) ++ rest) =
      match readExact n rest with
      | (.error e, rest) => (.error e, rest)
      | (.ok body, rest) =>
        match fromUtf8 body with
        | none => (.error .bodyNotUtf8, rest)
        | some s => (.ok (n, s), rest) := by
  rw [bytes_header, List.append_assoc, List.cons_append, readMessage_header hn, List.append_assoc,
    List.singleton_append, readBody, readLine_append (by decide)]

theorem readExact_append (body rest : List UInt8) :
    readExact body.length (body ++ rest) = (.ok body, rest) := by
  rw [readExact, if_pos (by rw [List.length_append]; exact Nat.le_add_right _ _), List.take_left,
    List.drop_left]

theorem readMessage_frame (message : Message) (rest : List UInt8) :
    readMessage (bytes (ContentLengthWriter.header (bytes message.text).length) ++
        bytes message.text ++ rest) =
      (.ok ((bytes message.text).length, message.text), rest) := by
  rw [List.append_assoc, readMessage_append message.length_lt, readExact_append]
  dsimp only
  rw [BTree.fromUtf8_bytes]

/-- The input ends within a frame: nothing is read of it. -/
def Ends (read : ReadResult × List UInt8) : Prop :=
  read.2 = [] ∧ (read.1 = endOfInput ∨ ∃ e, read.1 = .error e)

theorem ends_readBody (h : 10 ∉ q) (length : ℕ) : Ends (readBody length q) := by
  have hrest := readLine_line h
  rw [readBody]
  generalize readLine q = line at hrest
  obtain ⟨result, rest⟩ := line
  obtain rfl : rest = [] := hrest
  cases result with
  | error e => exact ⟨rfl, .inr ⟨e, rfl⟩⟩
  | ok separator =>
    dsimp only
    cases length with
    | zero =>
      have hnil : fromUtf8 [] = some [] := BTree.fromUtf8_bytes []
      rw [readExact, if_pos (Nat.zero_le _)]
      dsimp only [List.take_zero, List.drop_zero]
      rw [hnil]
      exact ⟨rfl, .inl rfl⟩
    | succ length =>
      rw [readExact, if_neg (by simp)]
      exact ⟨rfl, .inr ⟨_, rfl⟩⟩

theorem ends_readMessage (h : 10 ∉ q) : Ends (readMessage q) := by
  have hrest := readLine_line h
  rw [readMessage]
  generalize readLine q = line at hrest
  obtain ⟨result, rest⟩ := line
  obtain rfl : rest = [] := hrest
  cases result with
  | error e => exact ⟨rfl, .inr ⟨e, rfl⟩⟩
  | ok header =>
    dsimp only
    split_ifs
    · exact ⟨rfl, .inl rfl⟩
    · split
      · exact ⟨rfl, .inr ⟨_, rfl⟩⟩
      · exact ends_readBody List.not_mem_nil _

/-- Wherever a frame is cut, no message is read. -/
theorem ends_cut (message : Message)
    (hpref : q <+: bytes (ContentLengthWriter.header (bytes message.text).length) ++
      bytes message.text)
    (hlt : q.length < (bytes (ContentLengthWriter.header (bytes message.text).length) ++
      bytes message.text).length) : Ends (readMessage q) := by
  have hn := message.length_lt
  rcases Nat.lt_or_ge q.length
    (bytes (ContentLengthWriter.header (bytes message.text).length)).length with hshort | hlong
  · replace hpref := List.prefix_of_prefix_length_le hpref (List.prefix_append _ _) hshort.le
    have hname := newline_notMem_bytes (newline_notMem_header (bytes message.text).length)
    rw [bytes_header] at hpref hshort
    rcases Nat.lt_or_ge (bytes (headerName ++ Nat.toDigits 10 (bytes message.text).length ++
      ['\r'])).length q.length with hpast | hwithin
    · rw [List.append_cons] at hpref
      obtain ⟨q, rfl⟩ := List.prefix_of_prefix_length_le (List.prefix_append _ _) hpref
        (by rw [List.length_append]; exact hpast)
      rw [List.prefix_append_right_inj] at hpref
      have hreturn : q <+: [13] := by
        refine List.prefix_of_prefix_length_le hpref (List.prefix_append [13] [10]) ?_
        have hone : (bytes ['\r']).length = 1 := by decide
        simp only [List.length_append, List.length_cons, List.length_nil, hone] at hshort ⊢
        omega
      rw [List.append_assoc, List.singleton_append, readMessage_header hn]
      exact ends_readBody (fun hmem ↦ absurd (hreturn.subset hmem) (by decide)) _
    · have hwhole := List.prefix_of_prefix_length_le hpref (List.prefix_append _ _) hwithin
      exact ends_readMessage fun hmem ↦ hname (hwhole.subset hmem)
  · obtain ⟨b, rfl⟩ := List.prefix_of_prefix_length_le (List.prefix_append _ _) hpref hlong
    rw [List.length_append, List.length_append, Nat.add_lt_add_iff_left] at hlt
    rw [readMessage_append hn, readExact, if_neg (Nat.not_le.mpr hlt)]
    exact ⟨rfl, .inr ⟨_, rfl⟩⟩

end ContentLengthReader

/-! ## Framings -/

namespace Framing

def frame : Framing → Message → List UInt8
  | contentLength, message =>
    bytes (ContentLengthWriter.header (bytes message.text).length) ++ bytes message.text
  | newline, message => bytes message.text ++ [10]

variable {messages : List Message} {k : ℕ}

theorem written_eq (framing : Framing) (messages : List Message) :
    framing.written messages = messages.flatMap framing.frame := by
  have hfold (output : List UInt8) : messages.foldl
      (fun output message ↦ framing.writeMessage output (bytes message.text)) output =
        output ++ messages.flatMap framing.frame := by
    induction messages generalizing output with
    | nil => exact (List.append_nil output).symm
    | cons message messages ih =>
      have hwrite : framing.writeMessage output (bytes message.text) =
          output ++ framing.frame message := by
        cases framing with
        | contentLength => exact List.append_assoc _ _ _
        | newline => rfl
      rw [List.foldl_cons, ih, hwrite, List.flatMap_cons, List.append_assoc]
  exact hfold []

theorem readMessage_frame (framing : Framing) {message : Message}
    (h : framing = .newline → '\n' ∉ message.text) (rest : List UInt8) :
    framing.readMessage (framing.frame message ++ rest) = (framing.result message, rest) := by
  cases framing with
  | contentLength => exact ContentLengthReader.readMessage_frame message rest
  | newline =>
    have hline := readLine_append (h rfl) rest
    rw [← List.singleton_append, ← List.append_assoc] at hline
    exact hline

theorem readMessage_nil (framing : Framing) : framing.readMessage [] = (endOfInput, []) := by
  cases framing with
  | contentLength =>
    change ContentLengthReader.readMessage [] = _
    rw [ContentLengthReader.readMessage, readLine_nil]
    rfl
  | newline => exact readLine_nil

/-- Everything that is written is read. -/
theorem calls_written (framing : Framing)
    (h : framing = .newline → ∀ message ∈ messages, '\n' ∉ message.text) :
    calls framing.readMessage (messages.length + 1) (framing.written messages) =
      (messages.map framing.result ++ [endOfInput], []) := by
  have hcalls := calls_append (fun message hmessage ↦
    framing.readMessage_frame fun hframing ↦ h hframing message hmessage) 1 []
  rw [List.append_nil] at hcalls
  rw [written_eq, hcalls, calls, readMessage_nil]
  rfl

/-- Whole frames arrive, and then a part of one. -/
theorem exists_calls_take (framing : Framing)
    (h : framing = .newline → ∀ message ∈ messages, '\n' ∉ message.text)
    (hk : k < (framing.written messages).length) :
    ∃ i, ∃ hi : i < messages.length, ∃ q,
      (framing.written messages).take k = (messages.take i).flatMap framing.frame ++ q ∧
      q <+: framing.frame messages[i] ∧ q.length < (framing.frame messages[i]).length ∧
      calls framing.readMessage (i + 1) ((framing.written messages).take k) =
        ((messages.take i).map framing.result ++ [(framing.readMessage q).1],
          (framing.readMessage q).2) := by
  rw [written_eq] at hk ⊢
  obtain ⟨i, hi, q, htake, hpref, hlt⟩ := exists_take_flatMap hk
  refine ⟨i, hi, q, htake, hpref, hlt, ?_⟩
  have hread : ∀ message ∈ messages.take i, ∀ rest,
      framing.readMessage (framing.frame message ++ rest) = (framing.result message, rest) :=
    fun message hmessage ↦ framing.readMessage_frame fun hframing ↦
      h hframing message (List.mem_of_mem_take hmessage)
  have hcalls := calls_append hread 1 q
  rw [List.length_take, Nat.min_eq_left hi.le] at hcalls
  rw [htake, hcalls]
  rfl

theorem faithful_contentLength_iff (messages : List Message) (k : ℕ) :
    Faithful .contentLength messages k ↔ Arrives .contentLength messages k := by
  have hempty (message : Message) :
      contentLength.result message ≠ endOfInput ↔ message.text ≠ [] := by
    refine not_congr ⟨fun h ↦ ?_, fun h ↦ ?_⟩
    · rw [result, endOfInput, Except.ok.injEq, Prod.mk.injEq] at h
      exact h.2
    · rw [result, delivered, h]
      rfl
  constructor
  · intro h hk message hmessage
    exact (hempty message).mp ((h.whole hk).2 message hmessage)
  · intro h
    refine ⟨fun hk ↦ ⟨calls_written _ nofun, fun message hmessage ↦ ?_⟩, fun hk ↦ ?_⟩
    · exact (hempty message).mpr (h hk message hmessage)
    · obtain ⟨i, hi, q, -, hpref, hlt, hcalls⟩ := exists_calls_take .contentLength nofun hk
      obtain ⟨hrest, hend⟩ := ContentLengthReader.ends_cut messages[i] hpref hlt
      refine ⟨i, hi.le, (contentLength.readMessage q).1, ?_, hend⟩
      rw [hcalls]
      exact congrArg (Prod.mk _) hrest

/-- A line that is cut is read as a message, unless it is cut within a character. -/
theorem readLine_cut {q : List UInt8} (h : 10 ∉ q) :
    readLine q = match fromUtf8 q with
      | none => (.error .lineNotUtf8, [])
      | some text => (.ok (q.length, text), []) := by
  rw [readLine, splitLine_line h]

theorem frame_newline_cut {q : List UInt8} {message : Message} (h : '\n' ∉ message.text)
    (hpref : q <+: newline.frame message) (hlt : q.length < (newline.frame message).length) :
    10 ∉ q := by
  have hq : q <+: bytes message.text := by
    refine List.prefix_of_prefix_length_le hpref (List.prefix_append _ _) ?_
    rw [frame, List.length_append] at hlt
    exact Nat.le_of_lt_succ hlt
  exact fun hmem ↦ newline_notMem_bytes h (hq.subset hmem)

/-- The result of a message that was written differs from that of a line without a newline. -/
theorem result_newline_ne {q : List UInt8} {text : List Char} (hq : 10 ∉ q)
    (htext : fromUtf8 q = some text) (message : Message) :
    newline.result message ≠ .ok (q.length, text) := by
  intro h
  rw [result, Except.ok.injEq, Prod.mk.injEq] at h
  have hmem : 10 ∈ bytes text := by
    rw [← h.2, delivered, bytes_line]
    exact List.mem_append_right _ List.mem_cons_self
  obtain ⟨s, rfl⟩ := BTree.isSome_fromUtf8.mp (by rw [htext]; rfl)
  rw [BTree.fromUtf8_bytes] at htext
  obtain rfl := Option.some.inj htext
  exact hq hmem

theorem getLast?_flatMap_frame {messages : List Message} (hne : messages ≠ []) :
    (messages.flatMap newline.frame).getLast? = some 10 := by
  obtain ⟨init, message, rfl⟩ := List.eq_nil_or_concat' messages |>.resolve_left hne
  rw [List.flatMap_append, List.flatMap_singleton, frame, ← List.append_assoc]
  exact List.getLast?_concat

theorem isUtf8_flatMap_frame (messages : List Message) :
    IsUtf8 (messages.flatMap newline.frame) := by
  induction messages with
  | nil => exact IsUtf8.nil
  | cons message messages ih =>
    rw [List.flatMap_cons]
    exact (IsUtf8.append (BTree.isUtf8_bytes _) (BTree.isUtf8_bytes ['\n'])).append ih

/-- What is read of a cut line is taken for a message. -/
theorem not_faithful_of_cut {q : List UInt8} {text : List Char} {i : ℕ} (hi : i < messages.length)
    (hq : 10 ∉ q) (hne : q ≠ []) (htext : fromUtf8 q = some text)
    (hlt : k < (newline.written messages).length)
    (hcalls : calls newline.readMessage (i + 1) ((newline.written messages).take k) =
      ((messages.take i).map newline.result ++ [.ok (q.length, text)], [])) :
    ¬ Faithful .newline messages k := by
  intro hfaithful
  obtain ⟨j, hj, last, hcalls', hlast⟩ := hfaithful.part hlt
  have hresult (message : Message) : newline.result message ≠ last := by
    rcases hlast with rfl | ⟨e, rfl⟩
    · exact result_newline_ne List.not_mem_nil (BTree.fromUtf8_bytes []) message
    · exact nofun
  have hcut : (.ok (q.length, text) : ReadResult) ≠ last := by
    rcases hlast with rfl | ⟨e, rfl⟩
    · rw [endOfInput, ne_eq, Except.ok.injEq, Prod.mk.injEq]
      exact fun heq ↦ hne (List.length_eq_zero_iff.mp heq.1)
    · exact nofun
  rcases Nat.lt_or_ge i j with hbefore | hafter
  · have hsame :
        (calls newline.readMessage (j + 1) ((newline.written messages).take k)).1[i]? = _ :=
      getElem?_calls (Nat.lt_succ_of_lt hbefore) _
    rw [hcalls, hcalls', getElem?_take_append hj hbefore.le, if_pos hbefore,
      getElem?_take_append hi.le (Nat.le_refl i), if_neg (Nat.lt_irrefl i),
      List.getElem?_eq_getElem hi] at hsame
    exact result_newline_ne hq htext _ (Option.some.inj hsame)
  · have hsame :
        (calls newline.readMessage (i + 1) ((newline.written messages).take k)).1[j]? = _ :=
      getElem?_calls (Nat.lt_succ_of_le hafter) _
    rw [hcalls, hcalls', getElem?_take_append hi.le hafter, getElem?_take_append hj (Nat.le_refl j),
      if_neg (Nat.lt_irrefl j)] at hsame
    split_ifs at hsame with hstrict
    · rw [List.getElem?_eq_getElem (hstrict.trans hi)] at hsame
      exact hresult _ (Option.some.inj hsame)
    · exact hcut (Option.some.inj hsame)

theorem faithful_newline_iff (h : ∀ message ∈ messages, '\n' ∉ message.text)
    (hk : k ≤ (newline.written messages).length) :
    Faithful .newline messages k ↔ Arrives .newline messages k := by
  rcases hk.lt_or_eq with hlt | rfl
  · obtain ⟨i, hi, q, htake, hpref, hqlt, hcalls⟩ := exists_calls_take .newline (fun _ ↦ h) hlt
    have hq := frame_newline_cut (h _ (List.getElem_mem hi)) hpref hqlt
    have hfaithful (hend : (newline.readMessage q).1 = endOfInput ∨
        ∃ e, (newline.readMessage q).1 = .error e) : Faithful .newline messages k := by
      refine ⟨fun heq ↦ absurd heq hlt.ne, fun _ ↦ ⟨i, hi.le, _, ?_, hend⟩⟩
      rw [hcalls]
      exact congrArg (Prod.mk _) (readLine_line hq)
    rw [Arrives]
    by_cases hnil : q = []
    · subst hnil
      refine iff_of_true (hfaithful (.inl (by rw [readMessage_nil]))) ?_
      rw [htake, List.append_nil]
      by_cases hfirst : messages.take i = []
      · have hlength := congrArg List.length htake
        rw [hfirst, List.length_take, Nat.min_eq_left hk] at hlength
        exact .inl hlength
      · exact .inr (.inl (getLast?_flatMap_frame hfirst))
    · have hread : newline.readMessage q = _ := readLine_cut hq
      obtain ⟨s, hs⟩ := isUtf8_flatMap_frame (messages.take i)
      cases htext : fromUtf8 q with
      | none =>
        rw [htext] at hread
        refine iff_of_true (hfaithful (.inr ⟨_, congrArg Prod.fst hread⟩)) (.inr (.inr ?_))
        rw [htake, hs]
        intro hutf8
        obtain ⟨t, rfl⟩ := BTree.exists_rest hutf8
        rw [BTree.fromUtf8_bytes] at htext
        cases htext
      | some text =>
        rw [htext] at hread
        rw [hread] at hcalls
        refine iff_of_false (not_faithful_of_cut hi hq hnil htext hlt hcalls) ?_
        rw [htake]
        rintro (rfl | hlast | hutf8)
        · rw [List.take_zero] at htake
          exact hnil (List.append_eq_nil_iff.mp htake.symm).2
        · rw [List.getLast?_append_of_ne_nil _ hnil] at hlast
          exact hq (List.mem_of_getLast? hlast)
        · obtain ⟨t, rfl⟩ := BTree.isSome_fromUtf8.mp (by rw [htext]; rfl)
          exact hutf8 ((isUtf8_flatMap_frame _).append (BTree.isUtf8_bytes t))
  · refine iff_of_true ⟨fun _ ↦ ⟨calls_written _ fun _ ↦ h, fun message hmessage ↦ ?_⟩,
      fun hlt ↦ absurd hlt (Nat.lt_irrefl _)⟩ ?_
    · have hnil : fromUtf8 [] = some [] := BTree.fromUtf8_bytes []
      exact result_newline_ne List.not_mem_nil hnil message
    · rw [Arrives, List.take_length, written_eq]
      rcases messages with _ | ⟨message, messages⟩
      · exact .inl rfl
      · exact .inr (.inl (getLast?_flatMap_frame (List.cons_ne_nil _ _)))

end Framing

/-- Framing is faithful, but for an empty message behind a length, and for a line that is cut. -/
theorem faithful_iff (framing : Framing) (messages : List Message) (k : ℕ)
    (hnewline : framing = .newline → ∀ message ∈ messages, '\n' ∉ message.text)
    (hk : k ≤ (framing.written messages).length) :
    Faithful framing messages k ↔ Arrives framing messages k := by
  cases framing with
  | contentLength => exact Framing.faithful_contentLength_iff messages k
  | newline => exact Framing.faithful_newline_iff (hnewline rfl) hk

theorem faithful_iff_line : Faithful .newline [⟨['o', 'k'], by decide⟩] 3 ↔
    Arrives .newline [⟨['o', 'k'], by decide⟩] 3 :=
  faithful_iff .newline [⟨['o', 'k'], by decide⟩] 3 (fun _ ↦ by simp) (by decide)

/-- The empty message is read like the end, and the first byte of a line like a message. -/
theorem not_faithful :
    ¬ Faithful .contentLength [⟨[], by decide⟩] 21 ∧
      ¬ Faithful .newline [⟨['o', 'k'], by decide⟩] 1 := by
  constructor
  · intro h
    exact ((Framing.faithful_contentLength_iff _ _).mp h) (by decide) _ List.mem_cons_self rfl
  · intro h
    have harrives := (Framing.faithful_newline_iff (by simp) (by decide)).mp h
    rcases harrives with hzero | hlast | hutf8
    · cases hzero
    · exact absurd hlast (by decide)
    · exact hutf8 (BTree.isUtf8_bytes ['o'])

end EeEditor.Rpc
