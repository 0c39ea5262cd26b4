import Mathlib.Data.List.Basic
import TallyOwl.Wire.Item

/-! What never reaches storage by default (`scrub.rs`), over the characters of a text. Each loop
of the source drops at least one character a turn, so the length of the text bounds its turns.
The tables of letters of the Unicode standard are a parameter. -/
namespace TallyOwl.Scrub
open Wire

structure Unicode where
  isAlphanumeric : Char → Bool
  toLowercase : String → String

def removed : String := "<removed>"

def neverStored : List String :=
  ["secret", "credential", "token", "password", "passphrase", "api_key", "apikey", "api-key",
    "private_key", "privatekey", "authorization", "cookie", "session_key", "access_key",
    "refresh_token", "claim"]

def contains (text part : String) : Bool := text.toList.tails.any part.toList.isPrefixOf

variable (u : Unicode)

def isProtected (key : String) : Bool :=
  neverStored.any (contains (u.toLowercase key))

def isWord (c : Char) : Bool := u.isAlphanumeric c || c == '_' || c == '-'

def endsValue (c : Char) : Bool := isWhitespace c || [',', ';', ')', ']', Char.ofNat 125].contains c

/-- What is left after the value that follows a separator. A quoted value ends at its quote. -/
def skipValue : List Char → List Char
  | [] => []
  | quote :: tail =>
      if quote = Char.ofNat 34 ∨ quote = Char.ofNat 39 then
        (tail.dropWhile fun c => c != quote).tail
      else (quote :: tail).dropWhile fun c => !endsValue c

/-- The pairs and the query strings. `before` is what was read, latest first: the key of a pair is
looked up behind its separator. -/
def scan : ℕ → List Char → List Char → List Char
  | 0, _, rest => rest
  | _ + 1, _, [] => []
  | fuel + 1, before, c :: tail =>
      let key := String.ofList (before.takeWhile (isWord u)).reverse
      if (c = '=' ∨ c = ':') ∧ isProtected u key = true then
        let spaces := tail.takeWhile (· == ' ')
        let rest := skipValue (tail.dropWhile (· == ' '))
        let read := (c :: tail).take (tail.length + 1 - rest.length)
        c :: spaces ++ removed.toList ++ scan fuel (read.reverse ++ before) rest
      else
        let query := tail.takeWhile fun x => !isWhitespace x
        if c = '?' ∧ (before.head?.any fun x => !isWhitespace x) = true ∧ query ≠ [] then
          c :: removed.toList ++
            scan fuel (query.reverse ++ c :: before) (tail.dropWhile fun x => !isWhitespace x)
        else c :: scan fuel (c :: before) tail

def bearerWord (rest : List Char) : Option (List Char) :=
  (["Bearer ", "bearer ", "Basic ", "basic "].map String.toList).find? fun word => word.isPrefixOf rest

def scrubBearer : ℕ → List Char → List Char
  | 0, rest => rest
  | _ + 1, [] => []
  | fuel + 1, c :: tail =>
      match bearerWord (c :: tail) with
      | none => c :: scrubBearer fuel tail
      | some word =>
          let rest := (c :: tail).drop word.length
          let value := rest.takeWhile fun x => !isWhitespace x
          word ++ (if value = [] then [] else removed.toList) ++
            scrubBearer fuel (rest.dropWhile fun x => !isWhitespace x)

/-- The password between the first colon and the host, when there is one. -/
def hidePassword (authority : List Char) : List Char :=
  let user := authority.takeWhile (· != '@')
  if '@' ∈ authority ∧ ':' ∈ user then
    user.takeWhile (· != ':') ++ ':' :: removed.toList ++ authority.dropWhile (· != '@')
  else authority

def scrubConnectionString : ℕ → List Char → List Char
  | 0, rest => rest
  | _ + 1, [] => []
  | fuel + 1, c :: tail =>
      if "://".toList.isPrefixOf (c :: tail) then
        let after := (c :: tail).drop 3
        let inside := fun x => !(isWhitespace x || x == '/')
        "://".toList ++ hidePassword (after.takeWhile inside) ++
          scrubConnectionString fuel (after.dropWhile inside)
      else c :: scrubConnectionString fuel tail

def text (input : String) : String :=
  let scanned := scan u input.toList.length [] input.toList
  let hidden := scrubConnectionString scanned.length scanned
  .ofList (scrubBearer hidden.length hidden)

def path (input : String) : String :=
  if '?' ∈ input.toList then
    .ofList (input.toList.takeWhile (· != '?') ++ '?' :: removed.toList)
  else input

end TallyOwl.Scrub
