import Sema.Automaton.Row

/-!
# Rows for declarations

The states in which the parser stands at the top level: in a declaration, before a function's
body or after a complete declaration.
Every tenth row has the number of its state above it.
-/

namespace Sema.Automaton

/-- The rows of states 0 to 52. -/
def declarations : List Row :=
  [
    -- 0
    ⟨[(.void, 8), (.name, 9), (.const, 10), (.int, 11), (.float, 12), (.double, 13),
      (.string, 14)],
      [(.program, 1), (.decls, 2), (.decl, 3), (.varDecl, 4), (.funcDef, 5), (.varSpec, 6),
      (.typeName, 7)], some .programEmpty⟩,
    ⟨[], [], none⟩,
    ⟨[(.void, 8), (.name, 9), (.const, 10), (.int, 11), (.float, 12), (.double, 13),
      (.string, 14)],
      [(.decl, 15), (.varDecl, 4), (.funcDef, 5), (.varSpec, 6), (.typeName, 7)],
      some .programDecls⟩,
    ⟨[], [], some .declsFirst⟩,
    ⟨[], [], some .declVar⟩,
    ⟨[], [], some .declFunc⟩,
    ⟨[(.semicolon, 16)], [], none⟩,
    ⟨[(.name, 17)], [], none⟩,
    ⟨[(.name, 18)], [], none⟩,
    ⟨[(.lpar, 19)], [], none⟩,
    -- 10
    ⟨[(.int, 11), (.float, 12), (.double, 13), (.string, 14)], [(.typeName, 20)], none⟩,
    ⟨[], [], some (.typeName .int)⟩,
    ⟨[], [], some (.typeName .float)⟩,
    ⟨[], [], some (.typeName .double)⟩,
    ⟨[], [], some (.typeName .string)⟩,
    ⟨[], [], some .declsMore⟩,
    ⟨[], [], some .varDecl⟩,
    ⟨[(.equal, 21), (.lpar, 22)], [], some (.varSpec false false)⟩,
    ⟨[(.lpar, 23)], [], none⟩,
    ⟨[(.rpar, 25), (.int, 11), (.float, 12), (.double, 13), (.string, 14)],
      [(.params, 24), (.param, 26), (.typeName, 27)], none⟩,
    -- 20
    ⟨[(.name, 28)], [], none⟩,
    ⟨[(.name, 99), (.bang, 107), (.intLit, 109), (.floatLit, 110), (.stringLit, 111),
      (.lpar, 112)],
      [(.expr, 29), (.assign, 98), (.orExpr, 100), (.andExpr, 101), (.eqExpr, 102),
      (.relExpr, 103), (.addExpr, 104), (.mulExpr, 105), (.unary, 106), (.atom, 108)], none⟩,
    ⟨[(.rpar, 31), (.int, 11), (.float, 12), (.double, 13), (.string, 14)],
      [(.params, 30), (.param, 26), (.typeName, 27)], none⟩,
    ⟨[(.rpar, 33), (.int, 11), (.float, 12), (.double, 13), (.string, 14)],
      [(.params, 32), (.param, 26), (.typeName, 27)], none⟩,
    ⟨[(.rpar, 34)], [], none⟩,
    ⟨[(.lbrace, 53)], [(.block, 35)], none⟩,
    ⟨[(.comma, 37)], [(.paramTail, 36)], some .paramsOne⟩,
    ⟨[(.name, 38)], [], none⟩,
    ⟨[(.equal, 39)], [], some (.varSpec true false)⟩,
    ⟨[], [], some (.varSpec false true)⟩,
    -- 30
    ⟨[(.rpar, 40)], [], none⟩,
    ⟨[(.lbrace, 53)], [(.block, 41)], none⟩,
    ⟨[(.rpar, 42)], [], none⟩,
    ⟨[(.lbrace, 53)], [(.block, 43)], none⟩,
    ⟨[(.lbrace, 53)], [(.block, 44)], none⟩,
    ⟨[], [], some (.funcDef .absent false)⟩,
    ⟨[(.comma, 46)], [], some .paramsMany⟩,
    ⟨[(.int, 11), (.float, 12), (.double, 13), (.string, 14)],
      [(.param, 47), (.typeName, 27)], none⟩,
    ⟨[], [], some .param⟩,
    ⟨[(.name, 99), (.bang, 107), (.intLit, 109), (.floatLit, 110), (.stringLit, 111),
      (.lpar, 112)],
      [(.expr, 48), (.assign, 98), (.orExpr, 100), (.andExpr, 101), (.eqExpr, 102),
      (.relExpr, 103), (.addExpr, 104), (.mulExpr, 105), (.unary, 106), (.atom, 108)], none⟩,
    -- 40
    ⟨[(.lbrace, 53)], [(.block, 49)], none⟩,
    ⟨[], [], some (.funcDef .typed false)⟩,
    ⟨[(.lbrace, 53)], [(.block, 50)], none⟩,
    ⟨[], [], some (.funcDef .void false)⟩,
    ⟨[], [], some (.funcDef .absent true)⟩,
    ⟨[(.name, 51)], [], none⟩,
    ⟨[(.int, 11), (.float, 12), (.double, 13), (.string, 14)],
      [(.param, 52), (.typeName, 27)], none⟩,
    ⟨[], [], some .paramTailFirst⟩,
    ⟨[], [], some (.varSpec true true)⟩,
    ⟨[], [], some (.funcDef .typed true)⟩,
    -- 50
    ⟨[], [], some (.funcDef .void true)⟩,
    ⟨[(.equal, 21)], [], some (.varSpec false false)⟩,
    ⟨[], [], some .paramTailMore⟩]

end Sema.Automaton
