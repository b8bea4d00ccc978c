import ExpenseSettlement.Core.Theorems
import ExpenseSettlement.Core.Evidence
import ExpenseSettlement.Core.Plan
import ExpenseSettlement.Cache.Theorems
import ExpenseSettlement.Services.Theorems
import ExpenseSettlement.Messaging.Theorems
import ExpenseSettlement.Worker.Theorems
import ExpenseSettlement.Api.Theorems
import ExpenseSettlement.Process.Theorems
