/-!
# Keywords

The reserved words of the script language, in their upper-case spelling.
-/

namespace ServoScript

inductive Keyword where
  | GOTO | SUB | BEGIN | WHILE | REPEAT | IF | ELSE | ENDIF
  deriving DecidableEq

namespace Keyword

def all : List Keyword := [.GOTO, .SUB, .BEGIN, .WHILE, .REPEAT, .IF, .ELSE, .ENDIF]

def spelling : Keyword → String
  | .GOTO => "GOTO"
  | .SUB => "SUB"
  | .BEGIN => "BEGIN"
  | .WHILE => "WHILE"
  | .REPEAT => "REPEAT"
  | .IF => "IF"
  | .ELSE => "ELSE"
  | .ENDIF => "ENDIF"

def ofSpelling? (s : String) : Option Keyword := all.find? (·.spelling == s)

theorem ofSpelling?_spelling (k : Keyword) : ofSpelling? k.spelling = some k := by
  cases k <;> decide

theorem spelling_of_ofSpelling? {s : String} {k : Keyword} (h : ofSpelling? s = some k) :
    k.spelling = s := by
  simpa using List.find?_some h

end Keyword

end ServoScript
