import OpenServer.Dispatcher.Impl.Request
import OpenServer.Text.Reader

/-!
This module contains the client's side of a response: it reads the header line by line, and then as
many bytes as `Content-Length` says. The server has no such code.
-/

structure Document where
  mimeStr : Bytes
  body : Bytes
  deriving DecidableEq, Repr

def Document.response (d : Document) : Bytes :=
  HttpMessageDispatcher.responseHeader d.mimeStr d.body.length ++ d.body

namespace Client

def crLf : Bytes := ascii "\r\n"

theorem crLf_eq : crLf = [13, 10] := by
  rfl

theorem cutAt_crLf_length (h : Text.cutAt crLf s = some (line, rest)) : rest.length < s.length := by
  have := congrArg List.length (Text.cutAt_eq h)
  rw [crLf_eq] at this
  simp only [List.length_append, List.length_cons] at this
  omega

-- The lines of a header, up to the empty one.
def readHeader (s : Bytes) : Option (List Bytes × Bytes) :=
  match h : Text.cutAt crLf s with
  | none => none
  | some (line, rest) =>
    if line = [] then
      some ([], rest)
    else
      have := cutAt_crLf_length h
      (readHeader rest).map (fun (lines, rest) => (line :: lines, rest))
termination_by s.length

def field (name : Bytes) (lines : List Bytes) : Option Bytes :=
  lines.findSome? fun line =>
    if name.isPrefixOf line then some (line.drop name.length) else none

def ofDecimal (s : Bytes) : Option Nat :=
  if s.all (fun a => decide (48 ≤ a ∧ a ≤ 57)) then
    some (Nat.ofDigitChars 10 (s.map (fun a => Char.ofNat a.toNat)) 0)
  else
    none

def readResponse (s : Bytes) : Option (Document × Bytes) := do
  let (lines, rest) ← readHeader s
  let mimeStr ← field (ascii "Content-Type: ") lines
  let length ← field (ascii "Content-Length: ") lines
  let contentLength ← ofDecimal length
  if contentLength ≤ rest.length then
    some ({ mimeStr, body := rest.take contentLength }, rest.drop contentLength)
  else
    none

theorem readHeader_of_none (h : Text.cutAt crLf s = none) : readHeader s = none := by
  unfold readHeader
  split
  . rfl
  . next hsome => simp [h] at hsome

theorem readHeader_of_some (h : Text.cutAt crLf s = some (line, rest))
    : readHeader s
        =
      if line = [] then some ([], rest)
      else (readHeader rest).map (fun (lines, rest) => (line :: lines, rest)) := by
  rw [readHeader]
  split
  . next hnone => simp [h] at hnone
  . next line' rest' hsome =>
    obtain ⟨rfl, rfl⟩ : line = line' ∧ rest = rest' := by simpa [h] using hsome
    rfl

theorem readHeader_length (h : readHeader s = some (lines, rest)) : rest.length < s.length := by
  induction hn : s.length using Nat.strongRecOn generalizing s lines with
  | ind n ih =>
    cases hcut : Text.cutAt crLf s with
    | none => simp [readHeader_of_none hcut] at h
    | some p =>
      obtain ⟨line, rest'⟩ := p
      have hshorter := cutAt_crLf_length hcut
      rw [readHeader_of_some hcut] at h
      split at h
      . injection h with h
        injection h with _ hrest
        rwa [← hrest, ← hn]
      . obtain ⟨⟨lines', rest''⟩, hread, heq⟩ := Option.map_eq_some_iff.mp h
        injection heq with _ hrest
        rw [hrest] at hread
        have := ih rest'.length (by omega) hread rfl
        omega

theorem readHeader_more (h : readHeader s = some (lines, rest)) (t : Bytes)
    : readHeader (s ++ t) = some (lines, rest ++ t) := by
  induction hn : s.length using Nat.strongRecOn generalizing s lines with
  | ind n ih =>
    cases hcut : Text.cutAt crLf s with
    | none => simp [readHeader_of_none hcut] at h
    | some p =>
      obtain ⟨line, rest'⟩ := p
      have hshorter := cutAt_crLf_length hcut
      rw [readHeader_of_some hcut] at h
      rw [readHeader_of_some (Text.cutAt_more hcut t)]
      split at h
      . next hline =>
        injection h with h
        injection h with hlines hrest
        rw [if_pos hline, hlines, hrest]
      . next hline =>
        obtain ⟨⟨lines', rest''⟩, hread, heq⟩ := Option.map_eq_some_iff.mp h
        injection heq with hlines hrest
        rw [hrest] at hread
        rw [if_neg hline, ih rest'.length (by omega) hread rfl, ← hlines]
        rfl

theorem readHeader_line (hline : 13 ∉ line) (hnonempty : line ≠ []) (rest : Bytes)
    : readHeader (line ++ (crLf ++ rest))
        =
      (readHeader rest).map (fun (lines, rest) => (line :: lines, rest)) := by
  rw [readHeader_of_some (Text.cutAt_append rfl hline rest), if_neg hnonempty]

theorem readHeader_end (rest : Bytes) : readHeader (crLf ++ rest) = some ([], rest) := by
  have hcut := Text.cutAt_append (show crLf.head? = some 13 from rfl) List.not_mem_nil rest
  rw [List.nil_append] at hcut
  rw [readHeader_of_some hcut, if_pos rfl]

theorem ofDecimal_toDecimal (n : Nat) : ofDecimal (toDecimal n) = some n := by
  have hdigits : (toDecimal n).all (fun a => decide (48 ≤ a ∧ a ≤ 57)) := by
    rw [List.all_eq_true]
    intro a ha
    simp only [toDecimal, List.mem_map] at ha
    obtain ⟨c, hc, rfl⟩ := ha
    have hrange := toNat_of_mem_toDigits hc
    simp only [decide_eq_true_eq, UInt8.le_iff_toNat_le]
    simp
    omega
  rw [ofDecimal, if_pos hdigits, toDecimal_chars, Nat.ofDigitChars_ten_toDigits]

theorem readHeader_responseHeader (hmime : 13 ∉ mimeStr) (length : Nat) (rest : Bytes)
    : readHeader (HttpMessageDispatcher.responseHeader mimeStr length ++ rest)
        =
      some ([ascii "HTTP/1.1 200 OK", ascii "Content-Type: " ++ mimeStr, ascii "Connection: close",
        ascii "Content-Length: " ++ toDecimal length], rest) := by
  have hheader : HttpMessageDispatcher.responseHeader mimeStr length ++ rest
      = ascii "HTTP/1.1 200 OK" ++ (crLf ++ ((ascii "Content-Type: " ++ mimeStr)
        ++ (crLf ++ (ascii "Connection: close" ++ (crLf ++ ((ascii "Content-Length: "
        ++ toDecimal length) ++ (crLf ++ (crLf ++ rest)))))))) := by
    have hstatus : ascii "HTTP/1.1 200 OK\r\n" = ascii "HTTP/1.1 200 OK" ++ crLf := rfl
    have hconnection : ascii "Connection: close\r\n" = ascii "Connection: close" ++ crLf := rfl
    simp only [HttpMessageDispatcher.responseHeader, Int.toNat_natCast, hstatus, hconnection, crLf,
      List.append_assoc]
  have htype : 13 ∉ ascii "Content-Type: " ++ mimeStr := by
    rw [List.mem_append]
    rintro (h | h)
    . exact absurd h (by decide)
    . apply hmime h
  have hlength : 13 ∉ ascii "Content-Length: " ++ toDecimal length := by
    rw [List.mem_append]
    rintro (h | h)
    . exact absurd h (by decide)
    . apply carriageReturn_notMem_toDecimal h
  rw [hheader, readHeader_line (by decide) (by decide), readHeader_line htype (by simp [ascii]),
    readHeader_line (by decide) (by decide), readHeader_line hlength (by simp [ascii]),
    readHeader_end]
  rfl

theorem field_contentType (mimeStr length : Bytes)
    : field (ascii "Content-Type: ") [ascii "HTTP/1.1 200 OK", ascii "Content-Type: " ++ mimeStr,
          ascii "Connection: close", length]
        =
      some mimeStr := by
  rfl

theorem field_contentLength (mimeStr length : Bytes)
    : field (ascii "Content-Length: ") [ascii "HTTP/1.1 200 OK", ascii "Content-Type: " ++ mimeStr,
          ascii "Connection: close", ascii "Content-Length: " ++ length]
        =
      some length := by
  rfl

-- No body ends a message early: its length says where the next response begins.
theorem readResponse_response (d : Document) (h : 13 ∉ d.mimeStr) (rest : Bytes)
    : readResponse (d.response ++ rest) = some (d, rest) := by
  rw [Document.response, List.append_assoc, readResponse, readHeader_responseHeader h]
  simp only [Option.bind_eq_bind, Option.bind_some, field_contentType, field_contentLength,
    ofDecimal_toDecimal, List.length_append]
  rw [if_pos (by omega), List.take_left, List.drop_left]

theorem readResponse_cases (h : readResponse s = some (d, rest))
    : ∃ lines tail length contentLength, readHeader s = some (lines, tail)
        ∧ field (ascii "Content-Type: ") lines = some d.mimeStr
        ∧ field (ascii "Content-Length: ") lines = some length
        ∧ ofDecimal length = some contentLength ∧ contentLength ≤ tail.length
        ∧ d.body = tail.take contentLength ∧ rest = tail.drop contentLength := by
  simp only [readResponse, Option.bind_eq_bind, Option.bind_eq_some_iff] at h
  obtain ⟨⟨lines, tail⟩, hheader, mimeStr, htype, length, hlength, contentLength, hdecimal, h⟩ := h
  split at h
  . next hle =>
    injection h with h
    injection h with hd hrest
    rw [← hd]
    exact ⟨lines, tail, length, contentLength, hheader, htype, hlength, hdecimal, hle, rfl, hrest.symm⟩
  . cases h

def responseReader : Text.Reader UInt8 Document where
  read := readResponse
  shorter s d rest h := by
    obtain ⟨lines, tail, length, contentLength, hheader, -, -, -, -, -, hrest⟩ := readResponse_cases h
    have := readHeader_length hheader
    rw [hrest, List.length_drop]
    omega
  more s d rest t h := by
    obtain ⟨lines, tail, length, contentLength, hheader, htype, hlength, hdecimal, hle, hbody, hrest⟩ :=
      readResponse_cases h
    have hlonger : contentLength ≤ (tail ++ t).length := by
      rw [List.length_append]
      omega
    simp only [readResponse, readHeader_more hheader t, Option.bind_eq_bind, Option.bind_some, htype,
      hlength, hdecimal, if_pos hlonger]
    rw [List.take_append_of_le_length hle, List.drop_append_of_le_length hle, ← hbody, ← hrest]

end Client
