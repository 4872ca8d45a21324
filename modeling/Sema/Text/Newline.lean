/-!
# Line ends

Texts from files may end their lines in three ways. Here all of them become the line feed.
-/

namespace Sema.Newline

/-- Makes each carriage return, with a line feed that may come right after it, one line feed. -/
def fold : List Char → List Char
  | [] => []
  | '\r' :: '\n' :: cs => '\n' :: fold cs
  | '\r' :: cs => '\n' :: fold cs
  | c :: cs => c :: fold cs

theorem not_mem_fold (cs : List Char) : '\r' ∉ fold cs := by
  fun_induction fold cs with
  | case1 => simp
  | case2 cs ih => simp [ih]
  | case3 cs _ ih => simp [ih]
  | case4 c cs _ hc ih =>
    intro h
    rcases List.mem_cons.1 h with h | h
    · exact hc h.symm
    · exact ih h

end Sema.Newline
