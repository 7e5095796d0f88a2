import Mathlib.Data.List.AList
import Mathlib.Tactic

/-! # Common vocabulary

Types shared by the models of the three crates (`purple-wolf-core`, `purple-wolf-traefik`
and `purple-wolf-relay`).

* **Text and bytes.**  A Rust `String` is the list of its `char`s (`Str`), a `Vec<u8>` or
  `&[u8]` the list of its bytes (`Bytes`); `Lib/Utf8.lean` converts between the two.
* **Machine words.**  The guest is compiled for `wasm32`, the relay and the test suite for
  64-bit hosts, so `usize` is left open: a `Target` fixes the value of `usize::MAX`, and
  `Target.Usize` is the type of the numbers up to it. -/

namespace PurpleWolf

/-- A Rust `String` or `&str`: the list of its `char`s. -/
abbrev Str := List Char

/-- A Rust `Vec<u8>` or `&[u8]`. -/
abbrev Bytes := List UInt8

/-- A Rust `BTreeMap<String, String>`: operator-supplied labels. -/
abbrev Labels := AList (fun _ : Str => Str)

/-- A compilation target, as far as the width of `usize` is concerned. -/
structure Target where
  usizeMax : ℕ
  one_le : 1 ≤ usizeMax

namespace Target

/-- The values of type `usize`. -/
def Usize (T : Target) : Type := {n : ℕ // n ≤ T.usizeMax}

/-- The target of the http-wasm guest. -/
def wasm32 : Target := ⟨2 ^ 32 - 1, by decide⟩

/-- The target of the relay. -/
def native64 : Target := ⟨2 ^ 64 - 1, by decide⟩

end Target

end PurpleWolf
