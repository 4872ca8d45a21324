import Sema.Automaton.Row

/-!
# Rows for statements

The states in which the parser stands in a block or in a statement, outside of its expressions.
Every tenth row has the number of its state above it.
-/

namespace Sema.Automaton

/-- The rows of states 53 to 97. -/
def statements : List Row :=
  [
    ⟨[(.rbrace, 55), (.ifKw, 65), (.whileKw, 66), (.forKw, 67), (.returnKw, 68), (.lbrace, 53),
      (.const, 10), (.int, 11), (.float, 12), (.double, 13), (.string, 14), (.name, 99),
      (.bang, 107), (.intLit, 109), (.floatLit, 110), (.stringLit, 111), (.lpar, 112)],
      [(.stmts, 54), (.stmt, 56), (.varDecl, 57), (.exprStmt, 58), (.ifStmt, 59),
      (.whileStmt, 60), (.forStmt, 61), (.returnStmt, 62), (.block, 63), (.varSpec, 6),
      (.expr, 64), (.typeName, 45), (.assign, 98), (.orExpr, 100), (.andExpr, 101),
      (.eqExpr, 102), (.relExpr, 103), (.addExpr, 104), (.mulExpr, 105), (.unary, 106),
      (.atom, 108)], none⟩,
    ⟨[(.rbrace, 69), (.ifKw, 65), (.whileKw, 66), (.forKw, 67), (.returnKw, 68), (.lbrace, 53),
      (.const, 10), (.int, 11), (.float, 12), (.double, 13), (.string, 14), (.name, 99),
      (.bang, 107), (.intLit, 109), (.floatLit, 110), (.stringLit, 111), (.lpar, 112)],
      [(.stmt, 70), (.varDecl, 57), (.exprStmt, 58), (.ifStmt, 59), (.whileStmt, 60),
      (.forStmt, 61), (.returnStmt, 62), (.block, 63), (.varSpec, 6), (.expr, 64),
      (.typeName, 45), (.assign, 98), (.orExpr, 100), (.andExpr, 101), (.eqExpr, 102),
      (.relExpr, 103), (.addExpr, 104), (.mulExpr, 105), (.unary, 106), (.atom, 108)], none⟩,
    ⟨[], [], some .blockEmpty⟩,
    ⟨[], [], some .stmtsFirst⟩,
    ⟨[], [], some (.stmt .varDecl)⟩,
    ⟨[], [], some (.stmt .expr)⟩,
    ⟨[], [], some (.stmt .ifThen)⟩,
    -- 60
    ⟨[], [], some (.stmt .whileLoop)⟩,
    ⟨[], [], some (.stmt .forLoop)⟩,
    ⟨[], [], some (.stmt .result)⟩,
    ⟨[], [], some (.stmt .block)⟩,
    ⟨[(.semicolon, 71)], [], none⟩,
    ⟨[(.lpar, 72)], [], none⟩,
    ⟨[(.lpar, 73)], [], none⟩,
    ⟨[(.lpar, 74)], [], none⟩,
    ⟨[(.semicolon, 76), (.name, 99), (.bang, 107), (.intLit, 109), (.floatLit, 110),
      (.stringLit, 111), (.lpar, 112)],
      [(.expr, 75), (.assign, 98), (.orExpr, 100), (.andExpr, 101), (.eqExpr, 102),
      (.relExpr, 103), (.addExpr, 104), (.mulExpr, 105), (.unary, 106), (.atom, 108)], none⟩,
    ⟨[], [], some .blockFull⟩,
    -- 70
    ⟨[], [], some .stmtsMore⟩,
    ⟨[], [], some .exprStmt⟩,
    ⟨[(.name, 99), (.bang, 107), (.intLit, 109), (.floatLit, 110), (.stringLit, 111),
      (.lpar, 112)],
      [(.expr, 77), (.assign, 98), (.orExpr, 100), (.andExpr, 101), (.eqExpr, 102),
      (.relExpr, 103), (.addExpr, 104), (.mulExpr, 105), (.unary, 106), (.atom, 108)], none⟩,
    ⟨[(.name, 99), (.bang, 107), (.intLit, 109), (.floatLit, 110), (.stringLit, 111),
      (.lpar, 112)],
      [(.expr, 78), (.assign, 98), (.orExpr, 100), (.andExpr, 101), (.eqExpr, 102),
      (.relExpr, 103), (.addExpr, 104), (.mulExpr, 105), (.unary, 106), (.atom, 108)], none⟩,
    ⟨[(.const, 10), (.int, 11), (.float, 12), (.double, 13), (.string, 14), (.name, 99),
      (.bang, 107), (.intLit, 109), (.floatLit, 110), (.stringLit, 111), (.lpar, 112)],
      [(.forInit, 79), (.varSpec, 80), (.expr, 81), (.typeName, 45), (.assign, 98),
      (.orExpr, 100), (.andExpr, 101), (.eqExpr, 102), (.relExpr, 103), (.addExpr, 104),
      (.mulExpr, 105), (.unary, 106), (.atom, 108)], some .forInitEmpty⟩,
    ⟨[(.semicolon, 82)], [], none⟩,
    ⟨[], [], some .returnBare⟩,
    ⟨[(.rpar, 83)], [], none⟩,
    ⟨[(.rpar, 84)], [], none⟩,
    ⟨[(.semicolon, 85)], [], none⟩,
    -- 80
    ⟨[], [], some .forInitVar⟩,
    ⟨[], [], some .forInitExpr⟩,
    ⟨[], [], some .returnValue⟩,
    ⟨[(.lbrace, 53)], [(.block, 86)], none⟩,
    ⟨[(.lbrace, 53)], [(.block, 87)], none⟩,
    ⟨[(.name, 99), (.bang, 107), (.intLit, 109), (.floatLit, 110), (.stringLit, 111),
      (.lpar, 112)],
      [(.forCond, 88), (.expr, 89), (.assign, 98), (.orExpr, 100), (.andExpr, 101),
      (.eqExpr, 102), (.relExpr, 103), (.addExpr, 104), (.mulExpr, 105), (.unary, 106),
      (.atom, 108)], some .forCondEmpty⟩,
    ⟨[(.elseKw, 90)], [], some .ifThen⟩,
    ⟨[], [], some .whileLoop⟩,
    ⟨[(.semicolon, 91)], [], none⟩,
    ⟨[], [], some .forCondExpr⟩,
    -- 90
    ⟨[(.lbrace, 53), (.ifKw, 65)], [(.block, 92), (.ifStmt, 93)], none⟩,
    ⟨[(.name, 99), (.bang, 107), (.intLit, 109), (.floatLit, 110), (.stringLit, 111),
      (.lpar, 112)],
      [(.forUpdate, 94), (.expr, 95), (.assign, 98), (.orExpr, 100), (.andExpr, 101),
      (.eqExpr, 102), (.relExpr, 103), (.addExpr, 104), (.mulExpr, 105), (.unary, 106),
      (.atom, 108)], some .forUpdateEmpty⟩,
    ⟨[], [], some .ifElse⟩,
    ⟨[], [], some .ifElseIf⟩,
    ⟨[(.rpar, 96)], [], none⟩,
    ⟨[], [], some .forUpdateExpr⟩,
    ⟨[(.lbrace, 53)], [(.block, 97)], none⟩,
    ⟨[], [], some .forLoop⟩]

end Sema.Automaton
