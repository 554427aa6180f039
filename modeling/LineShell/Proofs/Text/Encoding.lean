import LineShell.Machine
import Mathlib

/-!
# Texts in files

The bytes of a text are read as the text again.
-/

namespace LineShell

namespace Content

/-- The byte that continues a character with six more bits. -/
def continuationByte (d : Nat) : UInt8 :=
  UInt8.ofNat (d + 0x80)

theorem continuation?_continuationByte {d : Nat} (h : d < 64) :
    continuation? (continuationByte d) = some d := by
  have hnat := UInt8.toNat_ofNat_of_lt' (n := d + 0x80) (by change d + 0x80 < 256; omega)
  simp only [continuation?, continuationByte, UInt8.le_iff_toNat_le, UInt8.lt_iff_toNat_lt, hnat]
  simp
  omega

theorem filterMap_continuationByte {ds : List Nat} (h : ∀ d ∈ ds, d < 64) :
    (ds.map continuationByte).filterMap continuation? = ds := by
  induction ds with
  | nil => rfl
  | cons d ds ih =>
    have hd := continuation?_continuationByte (h d List.mem_cons_self)
    rw [List.map_cons, List.filterMap_cons_some hd,
      ih fun e he => h e (List.mem_cons_of_mem d he)]

theorem lead?_ofNat {n : Nat} (h : n < 256) :
    lead? (UInt8.ofNat n) =
      if n < 0x80 then some (0, n)
      else if 0xC0 ≤ n ∧ n < 0xE0 then some (1, n - 0xC0)
      else if 0xE0 ≤ n ∧ n < 0xF0 then some (2, n - 0xE0)
      else if 0xF0 ≤ n ∧ n < 0xF8 then some (3, n - 0xF0)
      else none := by
  have hnat := UInt8.toNat_ofNat_of_lt' h
  simp only [lead?, UInt8.le_iff_toNat_le, UInt8.lt_iff_toNat_lt, hnat]
  rfl

theorem char?_of_payloads {b : UInt8} {ds : List Nat} {payload : Nat} {c : Char}
    (hds : ∀ d ∈ ds, d < 64) (hlead : lead? b = some (ds.length, payload))
    (hleast : leastCodePoint ds.length ≤ c.toNat)
    (hcode : ds.foldl (fun n d => 64 * n + d) payload = c.toNat) (rest : Content) :
    char? b (ds.map continuationByte ++ rest) = some (c, ds.length) := by
  have htake : (ds.map continuationByte ++ rest).take ds.length = ds.map continuationByte := by
    rw [← List.length_map (f := continuationByte)]
    exact List.take_left
  have hvalid : c.toNat.isValidChar := c.valid
  simp only [char?, hlead, htake, filterMap_continuationByte hds, hcode, hleast, hvalid]
  simp
  rfl

theorem toNat_lt_max (c : Char) : c.toNat < 0x110000 := by
  rcases c.valid with h | h
  · exact Nat.lt_trans h (by decide)
  · exact h.2

/-- A character is written as a first byte and the payloads behind it. -/
theorem utf8EncodeChar_eq (c : Char) : ∃ (b : UInt8) (ds : List Nat) (payload : Nat),
    String.utf8EncodeChar c = b :: ds.map continuationByte ∧ (∀ d ∈ ds, d < 64) ∧
      lead? b = some (ds.length, payload) ∧ leastCodePoint ds.length ≤ c.toNat ∧
      ds.foldl (fun n d => 64 * n + d) payload = c.toNat := by
  have hmax := toNat_lt_max c
  by_cases h1 : c.toNat ≤ 0x7F
  · refine ⟨UInt8.ofNat c.toNat, [], c.toNat, by simp [String.utf8EncodeChar, h1], by simp, ?_,
      by simp [leastCodePoint], rfl⟩
    rw [lead?_ofNat (by omega), if_pos (by omega)]
    rfl
  · by_cases h2 : c.toNat ≤ 0x7FF
    · refine ⟨UInt8.ofNat (c.toNat / 64 % 32 + 0xC0), [c.toNat % 64], c.toNat / 64 % 32,
        by simp [String.utf8EncodeChar, continuationByte, h1, h2], ?_, ?_, ?_, ?_⟩
      · simp
        omega
      · rw [lead?_ofNat (by omega), if_neg (by omega), if_pos (by omega)]
        simp
      · simp only [leastCodePoint, List.length_singleton]
        omega
      · simp only [List.foldl_cons, List.foldl_nil]
        omega
    · by_cases h3 : c.toNat ≤ 0xFFFF
      · refine ⟨UInt8.ofNat (c.toNat / 4096 % 16 + 0xE0), [c.toNat / 64 % 64, c.toNat % 64],
          c.toNat / 4096 % 16, by simp [String.utf8EncodeChar, continuationByte, h1, h2, h3],
          ?_, ?_, ?_, ?_⟩
        · simp
          omega
        · rw [lead?_ofNat (by omega), if_neg (by omega), if_neg (by omega), if_pos (by omega)]
          simp
        · simp only [leastCodePoint, List.length_cons, List.length_nil]
          omega
        · simp only [List.foldl_cons, List.foldl_nil]
          omega
      · refine ⟨UInt8.ofNat (c.toNat / 262144 % 8 + 0xF0),
          [c.toNat / 4096 % 64, c.toNat / 64 % 64, c.toNat % 64], c.toNat / 262144 % 8,
          by simp [String.utf8EncodeChar, continuationByte, h1, h2, h3], ?_, ?_, ?_, ?_⟩
        · simp
          omega
        · rw [lead?_ofNat (by omega), if_neg (by omega), if_neg (by omega), if_neg (by omega),
            if_pos (by omega)]
          simp
        · simp only [leastCodePoint, List.length_cons, List.length_nil]
          omega
        · simp only [List.foldl_cons, List.foldl_nil]
          omega

theorem charsFrom_skip (front rest : Content) :
    charsFrom front.length (front ++ rest) = charsFrom 0 rest := by
  induction front with
  | nil => rfl
  | cons b front ih => exact ih

theorem toText_ofText (text : String) : toText (ofText text) = text := by
  have hchars : ∀ cs : List Char, charsFrom 0 (cs.flatMap String.utf8EncodeChar) = cs := by
    intro cs
    induction cs with
    | nil => rfl
    | cons c cs ih =>
      rcases utf8EncodeChar_eq c with ⟨b, ds, payload, hbytes, hds, hlead, hleast, hcode⟩
      have hchar := char?_of_payloads hds hlead hleast hcode (cs.flatMap String.utf8EncodeChar)
      have hskip := charsFrom_skip (ds.map continuationByte) (cs.flatMap String.utf8EncodeChar)
      rw [List.length_map] at hskip
      rw [List.flatMap_cons, hbytes, List.cons_append, charsFrom, hchar]
      simp only [hskip, ih]
  rw [toText, ofText, hchars, String.ofList_toList]

end Content

theorem errors_write_ofText (host : Host) (text : String) :
    host.write .errors (Content.ofText text) = { host with errors := host.errors ++ text } := by
  rw [Host.write, Content.toText_ofText]

end LineShell
