/-!
# Text from bytes

`decode` reads bytes as UTF-8. Where they are not valid it says at which byte the first bad
sequence starts, and how many bytes of it were looked at before it went wrong; a sequence that is
cut off at the end of the input has no such count.
-/

namespace Nya.Utf8

/-- Where bytes stop being valid. -/
structure Fault where
  index : Nat
  length : Option Nat
  deriving DecidableEq, Repr

/-- The wording of a fault. -/
def Fault.message (f : Fault) : String :=
  match f.length with
  | some n =>
    "invalid utf-8 sequence of " ++ toString n ++ " bytes from index " ++ toString f.index
  | none => "incomplete utf-8 byte sequence from index " ++ toString f.index

/-- Whether a byte lies in a range. -/
def within (low high : Nat) (b : UInt8) : Bool := low ≤ b.toNat && b.toNat ≤ high

/-- Whether a byte continues a sequence. -/
def continues (b : UInt8) : Bool := within 0x80 0xbf b

/-- The second bytes that may follow the first byte of a sequence of three. -/
def secondOfThree (b : UInt8) : UInt8 → Bool :=
  if b = 0xe0 then within 0xa0 0xbf else if b = 0xed then within 0x80 0x9f else continues

/-- The second bytes that may follow the first byte of a sequence of four. -/
def secondOfFour (b : UInt8) : UInt8 → Bool :=
  if b = 0xf0 then within 0x90 0xbf else if b = 0xf4 then within 0x80 0x8f else continues

/-- The six low bits of a byte that continues a sequence. -/
def payload (b : UInt8) : Nat := b.toNat % 64

/-- Reads bytes, the first of which has the given index. -/
def decodeFrom (i : Nat) : List UInt8 → Except Fault (List Char)
  | [] => .ok []
  | b :: rest =>
    if b < 0x80 then (Char.ofNat b.toNat :: ·) <$> decodeFrom (i + 1) rest
    else if within 0xc2 0xdf b then
      match rest with
      | [] => .error ⟨i, none⟩
      | c :: rest =>
        if !continues c then .error ⟨i, some 1⟩
        else (Char.ofNat (b.toNat % 32 * 64 + payload c) :: ·) <$> decodeFrom (i + 2) rest
    else if within 0xe0 0xef b then
      match rest with
      | [] => .error ⟨i, none⟩
      | c :: rest =>
        if !secondOfThree b c then .error ⟨i, some 1⟩
        else
          match rest with
          | [] => .error ⟨i, none⟩
          | d :: rest =>
            if !continues d then .error ⟨i, some 2⟩
            else
              (Char.ofNat ((b.toNat % 16 * 64 + payload c) * 64 + payload d) :: ·) <$>
                decodeFrom (i + 3) rest
    else if within 0xf0 0xf4 b then
      match rest with
      | [] => .error ⟨i, none⟩
      | c :: rest =>
        if !secondOfFour b c then .error ⟨i, some 1⟩
        else
          match rest with
          | [] => .error ⟨i, none⟩
          | d :: rest =>
            if !continues d then .error ⟨i, some 2⟩
            else
              match rest with
              | [] => .error ⟨i, none⟩
              | e :: rest =>
                if !continues e then .error ⟨i, some 3⟩
                else
                  (Char.ofNat
                    (((b.toNat % 8 * 64 + payload c) * 64 + payload d) * 64 + payload e) :: ·) <$>
                    decodeFrom (i + 4) rest
    else .error ⟨i, some 1⟩

/-- Reads bytes as text. -/
def decode (bytes : List UInt8) : Except Fault String := String.ofList <$> decodeFrom 0 bytes

end Nya.Utf8
