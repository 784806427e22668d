import Gherkin.Text.Basic

/-! The blanks, comments and line ends of settings files. A line ends with a line feed, alone or
after a carriage return. -/

namespace Gherkin.Settings.Toml

/-- A space or a tab. -/
def isSpace (c : Char) : Bool := c == ' ' || c == '\t'

def skipSpace (t : Text) : Text := t.dropWhile isSpace

/-- The characters of comments and of texts on one line: no control character but the tab. -/
def isPlain (c : Char) : Bool := c == '\t' || (' ' ≤ c && c != '\x7f')

/-- What follows a line end. -/
def newline? : Text → Option Text
  | '\n' :: rest => some rest
  | '\r' :: '\n' :: rest => some rest
  | _ => none

/-- What follows a comment; every text without a comment in front is left as it is. -/
def skipComment : Text → Text
  | '#' :: rest => rest.dropWhile isPlain
  | t => t

/-- What follows the end of a line on which nothing but blanks and a comment is left. The last line
needs no line end. -/
def lineEnd? (t : Text) : Option Text :=
  match skipComment (skipSpace t) with
  | [] => some []
  | t => newline? t

/-- What follows blanks, comments and line ends; `comment` says whether a comment is open. -/
def skipBlank (comment : Bool) : Text → Text
  | '\n' :: rest => skipBlank false rest
  | '\r' :: '\n' :: rest => skipBlank false rest
  | c :: rest =>
    if comment then if isPlain c then skipBlank true rest else c :: rest
    else if c = '#' then skipBlank true rest
    else if isSpace c then skipBlank false rest
    else c :: rest
  | [] => []

end Gherkin.Settings.Toml
